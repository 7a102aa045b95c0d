import GraphViews.Filter.Parser
import GraphViews.Filter.Term
import Mathlib.Data.List.TakeWhile

/-!
# The grammar of filters

Which texts are filters, said without regard to how they are read. A text is laid out from tokens with blanks
between them, and the tokens are derived through the levels of the grammar.
-/

namespace GraphViews.Filter

/-- An integer as it is written: digits, or a minus directly before them. -/
structure Literal where
  negative : Bool
  digits : List Char
  nonempty : digits ≠ []
  decimal : ∀ c ∈ digits, c.isDigit = true

namespace Literal

def chars (l : Literal) : List Char := if l.negative then '-' :: l.digits else l.digits

def text (l : Literal) : String := String.ofList l.chars

def value (l : Literal) : Int :=
  if l.negative then -(Nat.ofDigitChars 10 l.digits 0 : Int) else (Nat.ofDigitChars 10 l.digits 0 : Int)

def InRange (l : Literal) : Prop :=
  -9223372036854775808 ≤ l.value ∧ l.value ≤ 9223372036854775807

instance : DecidablePred InRange := fun l =>
  inferInstanceAs (Decidable (-9223372036854775808 ≤ l.value ∧ l.value ≤ 9223372036854775807))

end Literal

/-- A name begins with a letter, goes on with letters, digits and underscores, and is no truth value. -/
structure IsName (x : String) : Prop where
  word : ∃ c cs, x.toList = c :: cs ∧ c.isAlpha = true ∧ ∀ d ∈ cs, isWordChar d = true
  ne_true : x ≠ "true"
  ne_false : x ≠ "false"

instance : DecidablePred IsName := fun x =>
  decidable_of_iff
    (x.toList.head?.any Char.isAlpha = true ∧ x.toList.tail.all isWordChar = true ∧
      x ≠ "true" ∧ x ≠ "false") <| by
    constructor
    · rintro ⟨hhead, htail, ht, hf⟩
      cases hx : x.toList with
      | nil =>
        rw [hx] at hhead
        cases hhead
      | cons c cs =>
        rw [hx] at hhead htail
        exact ⟨⟨c, cs, hx, hhead, List.all_eq_true.mp htail⟩, ht, hf⟩
    · rintro ⟨⟨c, cs, hx, hc, hcs⟩, ht, hf⟩
      rw [hx]
      exact ⟨hc, List.all_eq_true.mpr hcs, ht, hf⟩

abbrev Name := { x : String // IsName x }

inductive Token where
  | bool (value : Bool)
  | int (literal : Literal)
  | field (name : Name)
  | lparen | rparen | not | mod | cmp (op : CmpOp) | and | or

namespace Token

def chars : Token → List Char
  | bool true => ['t', 'r', 'u', 'e']
  | bool false => ['f', 'a', 'l', 's', 'e']
  | int l => l.chars
  | field x => x.val.toList
  | lparen => ['(']
  | rparen => [')']
  | not => ['!']
  | mod => ['%']
  | cmp op => op.symbol.toList
  | and => ['&', '&']
  | or => ['|', '|']

/-- A truth value has to be a whole word: no letter, digit or underscore follows it directly. -/
def WholeBefore : Token → List Char → Prop
  | bool _, s => s.head?.any isWordChar = false
  | _, _ => True

def literal? : Token → Option Literal
  | int l => some l
  | _ => none

end Token

/-- The text is the tokens in their order, with any blanks before each of them and at the end, where each token
fits before what follows it directly. -/
inductive Laid (fits : Token → List Char → Prop) : List Token → List Char → Prop where
  | blank {b : List Char} (hb : ∀ c ∈ b, isBlank c = true) : Laid fits [] b
  | token {b s : List Char} {t : Token} {ts : List Token} (hb : ∀ c ∈ b, isBlank c = true)
      (ht : fits t s) (h : Laid fits ts s) : Laid fits (t :: ts) (b ++ (t.chars ++ s))

/-- Any blanks, or none, between any tokens. -/
abbrev Spaced := Laid fun _ _ => True

/-- As `Spaced`, with truth values as whole words. -/
abbrev Worded := Laid Token.WholeBefore

/-- A term as written, its integers still being text. -/
abbrev Raw := Term String String

/-- The levels of the grammar, the loosest first. -/
inductive Level where
  | disjunction | conjunction | negation | comparison | remainder | atom
  deriving DecidableEq

/-- The tighter a level binds, the lower it ranks. -/
def Level.rank : Level → Nat
  | atom => 0
  | remainder => 1
  | comparison => 2
  | negation => 3
  | conjunction => 4
  | disjunction => 5

/-- The tokens are a term of the level. Each level is written with terms of the next one. -/
inductive Derives : Level → List Token → Raw → Prop where
  | bool (b : Bool) : Derives .atom [.bool b] (.bool b)
  | int (l : Literal) : Derives .atom [.int l] (.int l.text)
  | field (x : Name) : Derives .atom [.field x] (.field x.val)
  | parens {ts : List Token} {x : Raw} (h : Derives .disjunction ts x) :
      Derives .atom (.lparen :: (ts ++ [.rparen])) x
  | ofAtom {ts : List Token} {x : Raw} (h : Derives .atom ts x) : Derives .remainder ts x
  | mod {ss ts : List Token} {x y : Raw} (hx : Derives .remainder ss x) (hy : Derives .atom ts y) :
      Derives .remainder (ss ++ .mod :: ts) (.mod x y)
  | ofRemainder {ts : List Token} {x : Raw} (h : Derives .remainder ts x) : Derives .comparison ts x
  | cmp (op : CmpOp) {ss ts : List Token} {x y : Raw} (hx : Derives .remainder ss x)
      (hy : Derives .remainder ts y) : Derives .comparison (ss ++ .cmp op :: ts) (.cmp op x y)
  | ofComparison {ts : List Token} {x : Raw} (h : Derives .comparison ts x) : Derives .negation ts x
  | not {ts : List Token} {x : Raw} (h : Derives .negation ts x) :
      Derives .negation (.not :: ts) (.not x)
  | ofNegation {ts : List Token} {x : Raw} (h : Derives .negation ts x) : Derives .conjunction ts x
  | and {ss ts : List Token} {x y : Raw} (hx : Derives .conjunction ss x) (hy : Derives .negation ts y) :
      Derives .conjunction (ss ++ .and :: ts) (.and x y)
  | ofConjunction {ts : List Token} {x : Raw} (h : Derives .conjunction ts x) :
      Derives .disjunction ts x
  | or {ss ts : List Token} {x y : Raw} (hx : Derives .disjunction ss x)
      (hy : Derives .conjunction ts y) : Derives .disjunction (ss ++ .or :: ts) (.or x y)

private theorem skipBlank_append {b : List Char} (hb : ∀ c ∈ b, isBlank c = true) (s : List Char) :
    skipBlank (b ++ s) = skipBlank s :=
  List.dropWhile_append_of_pos hb

theorem exists_blank (s : List Char) : ∃ b, (∀ c ∈ b, isBlank c = true) ∧ s = b ++ skipBlank s :=
  ⟨s.takeWhile isBlank, fun _ hc => List.mem_takeWhile_imp hc, List.takeWhile_append_dropWhile.symm⟩

theorem not_isWordChar_of_isBlank {c : Char} (h : isBlank c = true) : isWordChar c = false := by
  simp only [isBlank, Bool.or_eq_true, beq_iff_eq] at h
  obtain ((rfl | rfl) | rfl) | rfl := h <;> rfl

theorem isWordChar_of_isDigit {c : Char} (h : c.isDigit = true) : isWordChar c = true := by
  simp [isWordChar, Char.isAlphanum, h]

theorem isWordChar_of_isAlpha {c : Char} (h : c.isAlpha = true) : isWordChar c = true := by
  simp [isWordChar, Char.isAlphanum, h]

private theorem not_isBlank_of_isWordChar {c : Char} (h : isWordChar c = true) : isBlank c = false := by
  cases hb : isBlank c with
  | false => rfl
  | true => exact absurd h (by simp [not_isWordChar_of_isBlank hb])

theorem not_isAlpha_of_isDigit {c : Char} (h : c.isDigit = true) : c.isAlpha = false := by
  have h9 : c.val.toNat ≤ 57 := (Char.isDigit_iff_toNat.mp h).2
  rw [← Bool.not_eq_true]
  intro ha
  rcases Bool.or_eq_true_iff.mp ha with hu | hl
  · have hu : 'A'.val ≤ c.val := (of_decide_eq_true hu).1
    exact absurd (Nat.le_trans hu h9) (by decide)
  · have hl : 'a'.val ≤ c.val := of_decide_eq_true (Bool.and_eq_true_iff.mp hl).1
    exact absurd (Nat.le_trans hl h9) (by decide)

theorem Literal.exists_digits (l : Literal) : ∃ d ds, l.digits = d :: ds ∧ d.isDigit = true := by
  obtain ⟨d, ds, h⟩ := List.exists_cons_of_ne_nil l.nonempty
  exact ⟨d, ds, h, l.decimal d (by simp [h])⟩

theorem Literal.exists_chars (l : Literal) :
    ∃ c cs, l.chars = c :: cs ∧ (c = '-' ∨ c.isDigit = true) := by
  obtain ⟨d, ds, hd, hdigit⟩ := l.exists_digits
  cases hn : l.negative with
  | true => exact ⟨'-', l.digits, by simp [chars, hn], .inl rfl⟩
  | false => exact ⟨d, ds, by simp [chars, hn, hd], .inr hdigit⟩

theorem Token.exists_chars (t : Token) : ∃ c cs, t.chars = c :: cs ∧ isBlank c = false := by
  cases t with
  | bool b => cases b <;> exact ⟨_, _, rfl, rfl⟩
  | int l =>
    obtain ⟨c, cs, hl, rfl | hc⟩ := l.exists_chars
    · exact ⟨_, cs, hl, rfl⟩
    · exact ⟨c, cs, hl, not_isBlank_of_isWordChar (isWordChar_of_isDigit hc)⟩
  | field x =>
    obtain ⟨c, cs, hx, hc, -⟩ := x.property.word
    exact ⟨c, cs, hx, not_isBlank_of_isWordChar (isWordChar_of_isAlpha hc)⟩
  | cmp op => cases op <;> exact ⟨_, _, rfl, rfl⟩
  | _ => exact ⟨_, _, rfl, rfl⟩

theorem skipBlank_chars (t : Token) (s : List Char) : skipBlank (t.chars ++ s) = t.chars ++ s := by
  obtain ⟨c, cs, ht, hc⟩ := t.exists_chars
  simp [skipBlank, ht, hc]

namespace Laid

variable {fits : Token → List Char → Prop} {t : Token} {ts us : List Token} {s : List Char}

theorem skipBlank_eq_nil (h : Laid fits [] s) : skipBlank s = [] := by
  cases h with
  | blank hb => exact List.dropWhile_eq_nil_iff.mpr hb

/-- The first token stands behind the blanks, and the other tokens are laid out in what is left. -/
theorem exists_cons (h : Laid fits (t :: ts) s) :
    ∃ r, skipBlank s = t.chars ++ r ∧ Laid fits ts r ∧ r.length < (skipBlank s).length := by
  cases h with
  | @token b r _ _ hb ht h =>
    have hs : skipBlank (b ++ (t.chars ++ r)) = t.chars ++ r := by
      rw [skipBlank_append hb, skipBlank_chars]
    refine ⟨r, hs, h, ?_⟩
    obtain ⟨c, cs, hc, -⟩ := t.exists_chars
    rw [hs, hc, List.cons_append, List.length_cons, List.length_append]
    omega

theorem after_blank {b : List Char} (hb : ∀ c ∈ b, isBlank c = true) (h : Laid fits ts s) :
    Laid fits ts (b ++ s) := by
  have hall {b' : List Char} (hb' : ∀ c ∈ b', isBlank c = true) : ∀ c ∈ b ++ b', isBlank c = true := by
    intro c hc
    exact (List.mem_append.mp hc).elim (hb c) (hb' c)
  cases h with
  | blank hb' => exact .blank (hall hb')
  | token hb' ht h =>
    rw [← List.append_assoc]
    exact .token (hall hb') ht h

theorem of_skipBlank (h : Laid fits ts (skipBlank s)) : Laid fits ts s := by
  obtain ⟨b, hb, hs⟩ := exists_blank s
  rw [hs]
  exact h.after_blank hb

end Laid

theorem spaced_flatMap (ps : List (List Char × Token)) (hb : ∀ p ∈ ps, ∀ c ∈ p.1, isBlank c = true) :
    Spaced (ps.map Prod.snd) (ps.flatMap fun p => p.1 ++ p.2.chars) := by
  induction ps with
  | nil => exact .blank nofun
  | cons p ps ih =>
    have hps := ih fun q hq => hb q (List.mem_cons_of_mem p hq)
    rw [List.map_cons, List.flatMap_cons, List.append_assoc]
    exact .token (hb p List.mem_cons_self) trivial hps

/-- The tokens of one text and then those of another. The blanks that end the one come before the other. -/
theorem spaced_append {ss ts : List Token} {s t : List Char} (hs : Spaced ss s) (ht : Spaced ts t) :
    Spaced (ss ++ ts) (s ++ t) := by
  induction hs with
  | blank hb => exact ht.after_blank hb
  | token hb hfits _ ih =>
    rw [List.append_assoc, List.append_assoc, List.cons_append]
    exact .token hb trivial ih

end GraphViews.Filter
