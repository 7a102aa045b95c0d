import GraphViews.Filter.Term
import GraphViews.Text.Quoted

/-! # The structural text of an expression: a constructor name over its arguments -/

namespace GraphViews.Filter

def CmpOp.shown : CmpOp → String
  | .eq => "Eq"
  | .neq => "Neq"
  | .lt => "Lt"
  | .le => "Le"
  | .gt => "Gt"
  | .ge => "Ge"

def Expr.shown : Expr → String
  | .field x => s!"Field({Text.Quoted.encode x})"
  | .int n => s!"Int({n})"
  | .bool b => s!"Bool({b})"
  | .and a b => s!"And({Expr.shown a}, {Expr.shown b})"
  | .or a b => s!"Or({Expr.shown a}, {Expr.shown b})"
  | .not a => s!"Not({Expr.shown a})"
  | .cmp op a b => s!"Cmp({op.shown}, {Expr.shown a}, {Expr.shown b})"
  | .mod a b => s!"Mod({Expr.shown a}, {Expr.shown b})"

end GraphViews.Filter
