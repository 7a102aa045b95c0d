import GraphViews.Proofs.Filter.Compilation

/-! # What a filter accepts, which may be left out -/

namespace GraphViews.Filter

open Fallible

/-- Whether the expression of a text is true of a record, as it is written. No text accepts everything. -/
def accepts (text : Option String) (c : Context) (record : List Int64) : Bool :=
  match text with
  | none => true
  | some text =>
    match parse text with
    | .ok e => (Expr.truth c record e).toOption == some true
    | .error _ => false

theorem accepts_of_truth {text : String} {c : Context} {record : List Int64} {e : Expr} {t : Bool}
    (hp : parse text = .ok e) (ht : Expr.truth c record e = .ok t) :
    accepts (some text) c record = t := by
  simp [accepts, hp, ht, Except.toOption]

private theorem parse_true : parse "true" = .ok (.bool true) :=
  toOption_eq_some.mp (by decide +kernel)

private theorem exists_compile_true (c : Context) : ∃ k, compile "true" c = .ok k := by
  obtain ⟨k, hk⟩ := Constraint.exists_ofExpr (c := c) (e := .bool true) (by simp [Expr.Known, Term.names])
  exact ⟨k, compile_ok.mpr ⟨.bool true, parse_true, rfl, hk⟩⟩

/-- The constraint of a text that compiles, or of one that is left out, answers what is accepted. -/
theorem exists_compile {text : Option String} {c : Context}
    (h : ∀ t, text = some t → ∃ k, compile t c = .ok k) :
    ∃ k, compile (text.getD "true") c = .ok k ∧ k.context = c ∧
      ∀ r : List Int64, c.fields.length ≤ r.length → k.test r = .ok (accepts text c r) := by
  cases text with
  | none =>
    obtain ⟨k, hk⟩ := exists_compile_true c
    obtain ⟨hc, e, hp, -, ht⟩ := test_of_compile hk
    obtain rfl := Except.ok.inj (parse_true.symm.trans hp)
    refine ⟨k, hk, hc, fun r hr => ?_⟩
    obtain ⟨t, htrue, htest⟩ := ht r hr
    rw [htest, ← htrue]
    rfl
  | some text =>
    obtain ⟨k, hk⟩ := h text rfl
    obtain ⟨hc, e, hp, -, ht⟩ := test_of_compile hk
    refine ⟨k, hk, hc, fun r hr => ?_⟩
    obtain ⟨t, htrue, htest⟩ := ht r hr
    rw [htest, accepts_of_truth hp htrue]

end GraphViews.Filter
