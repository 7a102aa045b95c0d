import GraphViews.Filter.Error

/-! # Kinds of terms: fields, integers and remainders are integers, all else is a truth value -/

namespace GraphViews.Filter

inductive Kind where
  | integer | boolean
  deriving DecidableEq

/-- Accepts a term whose kind is the one that its place demands. -/
def demand (wanted : Kind) (e : Expr) (found : Except FilterError Kind) : Except FilterError Unit :=
  match found with
  | .ok kind => if kind = wanted then .ok () else .error (.illTyped e)
  | .error err => .error err

/-- The kind of a term, or its first error from the left, the parts of a term before the term itself. -/
def kindOf (c : Context) : Expr → Except FilterError Kind
  | .field x => if (c.fieldIndex? x).isSome then .ok .integer else .error (.unknownField c x)
  | .int _ => .ok .integer
  | .bool _ => .ok .boolean
  | .and a b | .or a b => do
    demand .boolean a (kindOf c a)
    demand .boolean b (kindOf c b)
    return .boolean
  | .not a => do
    demand .boolean a (kindOf c a)
    return .boolean
  | .cmp _ a b => do
    demand .integer a (kindOf c a)
    demand .integer b (kindOf c b)
    return .boolean
  | .mod a b => do
    demand .integer a (kindOf c a)
    demand .integer b (kindOf c b)
    return .integer

/-- A filter is a truth value over the fields of its record. -/
def check (e : Expr) (c : Context) : Except FilterError Unit :=
  demand .boolean e (kindOf c e)

end GraphViews.Filter
