import GraphViews.Filter.Reading
import GraphViews.Proofs.Fallible
import GraphViews.Proofs.Filter.Grammar

/-!
# The values of integers

An integer has a word exactly where its value is in range. Of the integers of a term that have none, the first from
the left is reported.
-/

namespace GraphViews.Filter

open Fallible

namespace Literal

def word (l : Literal) : Int64 := Int64.ofInt l.value

private theorem natural?_digits (l : Literal) :
    Decimal.natural? l.digits = some (Nat.ofDigitChars 10 l.digits 0) := by
  have hall : l.digits.all Char.isDigit = true := List.all_eq_true.mpr l.decimal
  simp [Decimal.natural?, l.nonempty, hall]

theorem integer?_chars (l : Literal) : Decimal.integer? l.chars = some l.value := by
  cases hn : l.negative with
  | true => simp [chars, value, hn, Decimal.integer?, l.natural?_digits]
  | false =>
    obtain ⟨d, ds, hd, hdigit⟩ := l.exists_digits
    have hsign (c : Char) (hc : c.isDigit = false) : ∀ r, l.digits ≠ c :: r := by
      intro r hr
      rw [hd] at hr
      cases hr
      cases hc.symm.trans hdigit
    have hc : l.chars = l.digits := by simp [chars, hn]
    have hv : l.value = (Nat.ofDigitChars 10 l.digits 0 : Int) := by simp [value, hn]
    rw [hc, hv, Decimal.integer?]
    · rw [l.natural?_digits]
      rfl
    · exact hsign '+' rfl
    · exact hsign '-' rfl

/-- Only a value in range is read. -/
theorem read?_text (l : Literal) :
    Decimal.read? l.text = if l.InRange then some l.word else none := by
  have hw : l.InRange ↔ Int64.minValue.toInt ≤ l.value ∧ l.value ≤ Int64.maxValue.toInt := by
    have hmin : Int64.minValue.toInt = -9223372036854775808 := rfl
    have hmax : Int64.maxValue.toInt = 9223372036854775807 := rfl
    rw [InRange, hmin, hmax]
  rw [Decimal.read?, text, String.toList_ofList, l.integer?_chars, Option.bind_some, Decimal.word?]
  by_cases h : l.InRange
  · rw [if_pos h, if_pos (hw.mp h)]
    rfl
  · rw [if_neg h, if_neg fun h' => h (hw.mpr h')]

def ofInt (n : Int) : Literal where
  negative := n < 0
  digits := Nat.toDigits 10 n.natAbs
  nonempty := Nat.toDigits_ne_nil
  decimal _ hc := Nat.isDigit_of_mem_toDigits (by decide) (by decide) hc

@[simp] theorem value_ofInt (n : Int) : (ofInt n).value = n := by
  have hd : Nat.ofDigitChars 10 (ofInt n).digits 0 = n.natAbs :=
    Nat.ofDigitChars_toDigits (by decide) (by decide)
  rw [value, hd]
  by_cases hn : n < 0
  · have hneg : (ofInt n).negative = true := decide_eq_true hn
    rw [if_pos hneg]
    omega
  · have hneg : ¬(ofInt n).negative = true := fun h => hn (of_decide_eq_true h)
    rw [if_neg hneg]
    omega

end Literal

/-- The integers of a term, from left to right. -/
def Term.ints {φ ι : Type} : Term φ ι → List ι
  | .int n => [n]
  | .field _ | .bool _ => []
  | .not a => a.ints
  | .and a b | .or a b | .cmp _ a b | .mod a b => a.ints ++ b.ints

def literals (ts : List Token) : List Literal := ts.filterMap Token.literal?

/-- A term has the integers of its tokens, in the same order. -/
theorem Derives.ints_eq {l : Level} {ts : List Token} {x : Raw} (h : Derives l ts x) :
    x.ints = (literals ts).map Literal.text := by
  have happend (ss us : List Token) (t : Token) (ht : t.literal? = none) :
      literals (ss ++ t :: us) = literals ss ++ literals us := by
    simp [literals, List.filterMap_append, ht]
  induction h with
  | bool b => rfl
  | int i => rfl
  | field a => rfl
  | @parens ts x _ ih =>
    have hts : literals (.lparen :: (ts ++ [.rparen])) = literals ts := by
      rw [literals, List.filterMap_cons_none rfl, List.filterMap_append]
      exact List.append_nil _
    rw [hts, ih]
  | not _ ih =>
    rw [Term.ints, ih]
    rfl
  | ofAtom _ ih | ofRemainder _ ih | ofComparison _ ih | ofNegation _ ih | ofConjunction _ ih => exact ih
  | mod _ _ iha ihb | cmp _ _ _ iha ihb | and _ _ iha ihb | or _ _ iha ihb =>
    rw [Term.ints, iha, ihb, happend _ _ _ rfl, List.map_append]

/-- The expression of a term, with the values of its integers. -/
def Raw.resolve (x : Raw) : Except FilterError Expr := x.traverse .ok literalValue

/-- The first text without a value is reported, or there is a result. -/
def Reported (texts : List String) (r : Except FilterError Expr) : Prop :=
  match texts.find? fun text => (Decimal.read? text).isNone with
  | some text => r = .error (.intOutOfRange text)
  | none => ∃ e, r = .ok e

theorem Reported.one {ts : List String} {r : Except FilterError Expr} (h : Reported ts r)
    (op : Expr → Expr) : Reported ts (do return op (← r)) := by
  unfold Reported at *
  split at h
  · simp [h]
  · obtain ⟨a, rfl⟩ := h
    exact ⟨op a, rfl⟩

/-- Of two parts, the second is looked at only after the first has a result. -/
theorem Reported.both {ss ts : List String} {r r' : Except FilterError Expr} (h : Reported ss r)
    (h' : Reported ts r') (op : Expr → Expr → Expr) :
    Reported (ss ++ ts) (do return op (← r) (← r')) := by
  unfold Reported at *
  rw [List.find?_append]
  cases hs : ss.find? fun text => (Decimal.read? text).isNone with
  | some text =>
    rw [hs] at h
    simp [h]
  | none =>
    rw [hs] at h
    obtain ⟨a, rfl⟩ := h
    rw [Option.none_or]
    cases ht : ts.find? fun text => (Decimal.read? text).isNone with
    | some text =>
      rw [ht] at h'
      simp [h']
    | none =>
      rw [ht] at h'
      obtain ⟨b, rfl⟩ := h'
      exact ⟨op a b, rfl⟩

theorem Reported.ne_fault {ts : List String} {r : Except FilterError Expr} (h : Reported ts r)
    (f : Fault) : r ≠ .error (.fault f) := by
  rintro rfl
  unfold Reported at h
  split at h
  · cases h
  · obtain ⟨e, he⟩ := h
    cases he

/-- Of the integers of a term, the first without a value is reported. -/
theorem Raw.resolve_reported (x : Raw) : Reported x.ints (Raw.resolve x) := by
  induction x with
  | field name => exact ⟨.field name, rfl⟩
  | bool b => exact ⟨.bool b, rfl⟩
  | int text =>
    cases hn : Decimal.read? text with
    | _ => simp [Reported, Term.ints, Raw.resolve, Term.traverse, literalValue, hn]
  | not a ih => exact ih.one .not
  | and a b iha ihb => exact iha.both ihb .and
  | or a b iha ihb => exact iha.both ihb .or
  | cmp op a b iha ihb => exact iha.both ihb (.cmp op)
  | mod a b iha ihb => exact iha.both ihb .mod

end GraphViews.Filter
