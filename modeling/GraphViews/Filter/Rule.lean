/-!
# The rules that a rejected text is reported by

While a text is read, failures are collected, and only those furthest into the text are kept.
-/

namespace GraphViews.Filter

inductive Rule where
  | eoi | orExpr | andExpr | notExpr | cmpExpr | modExpr | cmpOp | bool | int | field
  deriving DecidableEq

namespace Rule

def all : List Rule :=
  [eoi, orExpr, andExpr, notExpr, cmpExpr, modExpr, cmpOp, bool, int, field]

def name : Rule → String
  | eoi => "EOI"
  | orExpr => "or_expr"
  | andExpr => "and_expr"
  | notExpr => "not_expr"
  | cmpExpr => "cmp_expr"
  | modExpr => "mod_expr"
  | cmpOp => "cmp_op"
  | bool => "bool"
  | int => "int"
  | field => "field"

end Rule

/-- The rules that failed with `left` characters to go, nowhere further. -/
structure Attempts where
  left : Nat
  rules : List Rule

namespace Attempts

/-- How many failures are kept for the place with `here` characters to go. -/
def countAt (a : Attempts) (here : Nat) : Nat :=
  if here = a.left then a.rules.length else 0

/-- Adds a failed rule that began at `here` with `before` failures kept. The failures found inside it give
way to the rule itself, unless there is just one. -/
def record (a : Attempts) (rule : Rule) (here before : Nat) : Attempts :=
  if a.countAt here = before + 1 then a
  else if here < a.left then ⟨here, [rule]⟩
  else if here = a.left then ⟨here, a.rules.take before ++ [rule]⟩
  else a

end Attempts

end GraphViews.Filter
