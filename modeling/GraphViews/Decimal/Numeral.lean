import GraphViews.Decimal
import GraphViews.Decimal.Nearest

/-! # Decimal numerals with a fraction and an exponent -/

namespace GraphViews.Decimal

/-- A finite magnitude is its digits as a whole number, times ten to the exponent. -/
inductive Magnitude where
  | undefined
  | infinite
  | finite (digits : Nat) (exponent : Int)
  deriving DecidableEq

structure Numeral where
  negative : Bool
  magnitude : Magnitude
  deriving DecidableEq

/-- What is left behind the digits is nothing, or a letter e and an integer. -/
def exponent? : List Char → Option Int
  | [] => some 0
  | letter :: text => if letter = 'e' || letter = 'E' then integer? text else none

/-- The digits before a point, those behind it, and what is left. -/
def splitPoint (text : List Char) : List Char × List Char × List Char :=
  let whole := text.takeWhile Char.isDigit
  match text.dropWhile Char.isDigit with
  | '.' :: rest => (whole, rest.takeWhile Char.isDigit, rest.dropWhile Char.isDigit)
  | rest => (whole, [], rest)

/-- Either side of the point may be empty, but not both. -/
def finite? (text : List Char) : Option Magnitude := do
  let (whole, fraction, rest) := splitPoint text
  let digits ← natural? (whole ++ fraction)
  let exponent ← exponent? rest
  return .finite digits (exponent - fraction.length)

/-- The names of the magnitudes that have no digits are matched without regard to case. -/
def magnitude? (text : List Char) : Option Magnitude :=
  match String.ofList (text.map Char.toLower) with
  | "nan" => some .undefined
  | "inf" => some .infinite
  | "infinity" => some .infinite
  | _ => finite? text

def numeral? : List Char → Option Numeral
  | '+' :: text => (magnitude? text).map (⟨false, ·⟩)
  | '-' :: text => (magnitude? text).map (⟨true, ·⟩)
  | text => (magnitude? text).map (⟨false, ·⟩)

def Numeral.read? (text : String) : Option Numeral :=
  numeral? text.toList

/-- The double word of a magnitude. An exponent that alone puts it out of range is not expanded. -/
def Magnitude.word : Magnitude → Nat
  | undefined => 0x7ff8000000000000
  | infinite => infinityWord
  | finite 0 _ => 0
  | finite digits (.ofNat e) =>
      if 400 < e then infinityWord else nearestWord (digits * Nat.pow 10 e) 1
  | finite digits (.negSucc e) =>
      if digits.log2 + 400 < e then 0 else nearestWord digits (Nat.pow 10 (e + 1))

def Numeral.word (x : Numeral) : UInt64 :=
  let sign : UInt64 := if x.negative then 0x8000000000000000 else 0
  sign ||| UInt64.ofNat x.magnitude.word

/-- The double of that word. Properties that are doubles are compared as such. -/
def Numeral.toFloat (x : Numeral) : Float :=
  Float.ofBits x.word

end GraphViews.Decimal
