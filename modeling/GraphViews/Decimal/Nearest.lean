/-! # The binary word of a quotient, rounded once to the nearest -/

namespace GraphViews.Decimal

/-- The integer nearest to a quotient, the even one of two that are equally near. -/
def halfEven (num den : Nat) : Nat :=
  let quotient := num / den
  let rest := num % den
  if 2 * rest < den then quotient
  else if den < 2 * rest then quotient + 1
  else quotient + quotient % 2

def infinityWord : Nat := 0x7ff0000000000000

/-- The double word of a quotient. In the least units, of which 2 to the 1074 make one, a magnitude
below 2 to the 53 is its own word; each doubling above drops one more bit and adds one to the field of
the exponent, where a significand that rounds up to 2 to the 53 carries over. -/
def nearestWord (num den : Nat) : Nat :=
  let units := num <<< 1074
  let dropped := (units / den).log2 - 52
  min infinityWord ((dropped <<< 52) + halfEven units (den <<< dropped))

end GraphViews.Decimal
