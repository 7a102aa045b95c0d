/-! # Decimal integers with an optional sign, in the range of 64-bit words -/

namespace GraphViews.Decimal

/-- The word with the given value, if there is one. -/
def word? (n : Int) : Option Int64 :=
  if Int64.minValue.toInt ≤ n ∧ n ≤ Int64.maxValue.toInt then some (Int64.ofInt n) else none

/-- Only a nonempty run of the digits 0 to 9 has a value. -/
def natural? (digits : List Char) : Option Nat :=
  if digits.isEmpty || !digits.all Char.isDigit then none
  else some (Nat.ofDigitChars 10 digits 0)

def integer? : List Char → Option Int
  | '+' :: digits => (natural? digits).map fun n => (n : Int)
  | '-' :: digits => (natural? digits).map fun n => -(n : Int)
  | digits => (natural? digits).map fun n => (n : Int)

def read? (text : String) : Option Int64 :=
  (integer? text.toList).bind word?

end GraphViews.Decimal
