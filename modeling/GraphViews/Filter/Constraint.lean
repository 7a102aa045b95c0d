import GraphViews.Filter.Evaluation
import GraphViews.Filter.Reading
import GraphViews.Filter.Simplify
import GraphViews.Filter.Typing

/-! # Constraints: expressions that are ready to be tested on the records of a context -/

namespace GraphViews.Filter

structure Constraint where
  context : Context
  expr : Expr
  code : Code
  resolved : Expr.resolve expr context = .ok code
  deriving DecidableEq

namespace Constraint

/-- The constraint of an expression as it is, checked or not. -/
def ofExpr (e : Expr) (c : Context) : Except Fault Constraint :=
  match h : Expr.resolve e c with
  | .ok code => .ok ⟨c, e, code, h⟩
  | .error fault => .error fault

def test (k : Constraint) (record : List Int64) : Except Fault Bool :=
  k.code.evalBool record

end Constraint

/-- The constraint that a text stands for, simplified. -/
def compile (text : String) (c : Context) : Except FilterError Constraint := do
  let e ← parse text
  check e c
  match Constraint.ofExpr (Expr.simplify e) c with
  | .ok k => return k
  | .error fault => throw (.fault fault)

end GraphViews.Filter
