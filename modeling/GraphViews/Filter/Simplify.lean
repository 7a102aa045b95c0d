import GraphViews.Filter.Remainder
import GraphViews.Filter.Term

/-!
# Simplification

Constants are folded, and negation moves into a comparison whose sides always have a value.
-/

namespace GraphViews.Filter.Expr

/-- A term with a value on every record; a remainder may be undefined. -/
def isTotal : Expr → Bool
  | .mod a (.int n) => isTotal a && n != 0 && n != -1
  | .mod _ _ => false
  | _ => true

def conjoin : Expr → Expr → Expr
  | .bool false, _ => .bool false
  | _, .bool false => .bool false
  | .bool true, b => b
  | a, .bool true => a
  | a, b => .and a b

def disjoin : Expr → Expr → Expr
  | .bool true, _ => .bool true
  | _, .bool true => .bool true
  | .bool false, b => b
  | a, .bool false => a
  | a, b => .or a b

def negate : Expr → Expr
  | .bool b => .bool !b
  | .not a => a
  | .cmp op a b => if isTotal a && isTotal b then .cmp op.negate a b else .not (.cmp op a b)
  | a => .not a

def compareBy (op : CmpOp) : Expr → Expr → Expr
  | .int x, .int y => .bool (op.apply x y)
  | a, b => .cmp op a b

/-- The remainder of simplified terms, which stays where it is undefined. -/
def reduceMod : Expr → Expr → Expr
  | .int x, .int y =>
    match remainder? x y with
    | some z => .int z
    | none => .mod (.int x) (.int y)
  | a, b => .mod a b

def simplify : Expr → Expr
  | .and a b => conjoin (simplify a) (simplify b)
  | .or a b => disjoin (simplify a) (simplify b)
  | .not a => negate (simplify a)
  | .cmp op a b => compareBy op (simplify a) (simplify b)
  | .mod a b => reduceMod (simplify a) (simplify b)
  | e => e

end GraphViews.Filter.Expr
