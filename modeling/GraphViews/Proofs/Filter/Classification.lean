import GraphViews.Proofs.Filter.ParserCompleteness
import GraphViews.Proofs.Filter.ParserSoundness

/-!
# What comes of a text

A text that the grammar does not derive is rejected. Of a derived text, the first integer out of range is reported,
and without one there is an expression.
-/

namespace GraphViews.Filter

/-- The text is laid out from the tokens, and these are derived to the term. -/
structure Derivation (text : String) (ts : List Token) (x : Raw) : Prop where
  worded : Worded ts text.toList
  derives : Derives .disjunction ts x

variable {text : String} {ts : List Token} {x : Raw}

/-- However a term is laid out, it is parsed to its expression. -/
theorem parse_of_laid {fits : Token → List Char → Prop} (hs : Laid fits ts text.toList)
    (h : Derives .disjunction ts x) : parse text = x.resolve := by
  obtain ⟨n, k, hw, hx⟩ := wholeText_complete hs h
  have hparts : parseParts text.toList = .ok [n, k] := by
    rw [parseParts, hw]
  have hrule : n.rule ≠ .eoi := by
    rw [hx.rule .orExpr rfl]
    decide
  rw [parse, hparts, ← hx.read]
  exact if_neg hrule

/-- A text that is not read is reported by the failures that are kept for it. -/
theorem parse_of_rejected (h : (wholeText text.toList).result = none) :
    parse text = .error (.unparsable
      (.ofAttempts text.toList ((wholeText text.toList).attempts ⟨text.toList.length, []⟩))) := by
  rw [parse, parseParts, h]

theorem parse_of_not_derived (h : ¬∃ ts x, Derivation text ts x) :
    ∃ failure, parse text = .error (.unparsable failure) := by
  refine ⟨_, parse_of_rejected (wholeText_eq_none ?_)⟩
  intro ⟨ts, x, hs, hd⟩
  exact h ⟨ts, x, hs, hd⟩

theorem Literal.read?_isNone (l : Literal) :
    (Decimal.read? l.text).isNone = decide (¬l.InRange) := by
  rw [l.read?_text]
  by_cases h : l.InRange
  · simp [h]
  · simp [h]

/-- The first integer of a term without a value is the first of its tokens out of range. -/
theorem Derives.resolve_reported (h : Derives .disjunction ts x) :
    match (literals ts).find? fun l => ¬l.InRange with
    | some l => x.resolve = .error (.intOutOfRange l.text)
    | none => ∃ e, x.resolve = .ok e := by
  have hx := x.resolve_reported
  rw [h.ints_eq, Reported, List.find?_map] at hx
  simp only [Function.comp_def, Literal.read?_isNone] at hx
  cases hf : (literals ts).find? fun l => ¬l.InRange with
  | none =>
    rw [hf] at hx
    exact hx
  | some l =>
    rw [hf] at hx
    exact hx

/-- A text is rejected as no filter exactly where the grammar has no derivation for it. A derived text is rejected
for its first integer out of range, if there is one, and is parsed otherwise. Nothing is left to a broken contract. -/
theorem parse_classifies (text : String) :
    ((∃ failure, parse text = .error (.unparsable failure)) ↔ ¬∃ ts x, Derivation text ts x) ∧
    (∀ ts x, Derivation text ts x →
      (∀ l, (literals ts).find? (fun l => ¬l.InRange) = some l →
        parse text = .error (.intOutOfRange l.text)) ∧
      ((∀ l ∈ literals ts, l.InRange) → ∃ e, parse text = .ok e)) ∧
    ∀ fault, parse text ≠ .error (.fault fault) := by
  have hparsed {ts : List Token} {x : Raw} (h : Derivation text ts x) : parse text = x.resolve :=
    parse_of_laid h.worded h.derives
  refine ⟨⟨?_, parse_of_not_derived⟩, ?_, ?_⟩
  · rintro ⟨failure, hf⟩ ⟨ts, x, h⟩
    have hx := h.derives.resolve_reported
    rw [← hparsed h, hf] at hx
    split at hx
    · cases hx
    · obtain ⟨e, he⟩ := hx
      cases he
  · intro ts x h
    have hx := h.derives.resolve_reported
    rw [← hparsed h] at hx
    refine ⟨?_, ?_⟩
    · intro l hl
      rw [hl] at hx
      exact hx
    · intro hall
      have hnone : (literals ts).find? (fun l => ¬l.InRange) = none := by
        rw [List.find?_eq_none]
        intro l hl
        simp [hall l hl]
      rw [hnone] at hx
      exact hx
  · intro fault
    by_cases h : ∃ ts x, Derivation text ts x
    · obtain ⟨ts, x, h⟩ := h
      rw [hparsed h]
      exact x.resolve_reported.ne_fault fault
    · obtain ⟨failure, hf⟩ := parse_of_not_derived h
      rw [hf]
      exact nofun

theorem parse_classifies_bounds :
    parse "1<9223372036854775808" = .error (.intOutOfRange "9223372036854775808") ∧
    ∃ e, parse "-1" = .ok e := by
  let one := Literal.ofInt 1
  let above := Literal.ofInt 9223372036854775808
  let minus := Literal.ofInt (-1)
  refine ⟨?_, ?_⟩
  · have htext : "1<9223372036854775808".toList =
        [] ++ (one.chars ++ ([] ++ (['<'] ++ ([] ++ (above.chars ++ []))))) := by
      decide +kernel
    have hworded : Worded [.int one, .cmp .lt, .int above] "1<9223372036854775808".toList := by
      rw [htext]
      exact .token nofun trivial (.token (t := .cmp .lt) nofun trivial
        (.token nofun trivial (.blank nofun)))
    have hcmp := Derives.cmp .lt (.ofAtom (.int one)) (.ofAtom (.int above))
    have hderives := Derives.ofConjunction (.ofNegation (.ofComparison hcmp))
    have hin : one.InRange := by simp [Literal.InRange, one]
    have hout : ¬above.InRange := by simp [Literal.InRange, above]
    have hfirst : [one, above].find? (fun l => ¬l.InRange) = some above := by
      simp [hin, hout]
    have hname : above.text = "9223372036854775808" := by decide +kernel
    rw [← hname]
    exact ((parse_classifies _).2.1 _ _ ⟨hworded, hderives⟩).1 above hfirst
  · have htext : "-1".toList = [] ++ (minus.chars ++ []) := by decide +kernel
    have hworded : Worded [.int minus] "-1".toList := by
      rw [htext]
      exact .token nofun trivial (.blank nofun)
    have hderives : Derives .disjunction [.int minus] _ :=
      .ofConjunction (.ofNegation (.ofComparison (.ofRemainder (.ofAtom (.int minus)))))
    have hall : ∀ l ∈ [minus], l.InRange := by simp [Literal.InRange, minus]
    exact ((parse_classifies _).2.1 _ _ ⟨hworded, hderives⟩).2 hall

end GraphViews.Filter
