/-! # The remainder of a division of words that rounds towards zero -/

namespace GraphViews.Filter

/-- There is none for the divisor zero, nor where the quotient is out of range. -/
def remainder? (x y : Int64) : Option Int64 :=
  if y = 0 ∨ (x = Int64.minValue ∧ y = -1) then none else some (x % y)

end GraphViews.Filter
