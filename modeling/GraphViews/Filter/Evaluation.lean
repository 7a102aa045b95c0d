import GraphViews.Fault
import GraphViews.Filter.Remainder
import GraphViews.Filter.Term

/-!
# Terms on a record

A term is read from left to right, and no further than its value needs.
-/

namespace GraphViews.Filter

def Expr.resolve (e : Expr) (c : Context) : Except Fault Code :=
  e.traverse
    (fun x => match c.fieldIndex? x with
      | some i => .ok i
      | none => .error (.unresolvedField x))
    .ok

namespace Code

/-- The value of an integer term, `none` where a remainder is undefined. -/
def evalInt (record : List Int64) : Code → Except Fault (Option Int64)
  | .field i =>
    match record[i]? with
    | some x => .ok (some x)
    | none => .error (.outOfBounds record.length i)
  | .int n => .ok (some n)
  | .mod a b => do
    match ← evalInt record a with
    | none => return none
    | some x =>
      match ← evalInt record b with
      | none => return none
      | some y => return remainder? x y
  | _ => .error .misplacedTerm

/-- The truth of a term. A comparison with an undefined side does not hold. -/
def evalBool (record : List Int64) : Code → Except Fault Bool
  | .bool b => .ok b
  | .and a b => do if ← evalBool record a then evalBool record b else return false
  | .or a b => do if ← evalBool record a then return true else evalBool record b
  | .not a => return !(← evalBool record a)
  | .cmp op a b => do
    let x ← evalInt record a
    let y ← evalInt record b
    match x, y with
    | some x, some y => return op.apply x y
    | _, _ => return false
  | _ => .error .misplacedTerm

end Code

end GraphViews.Filter
