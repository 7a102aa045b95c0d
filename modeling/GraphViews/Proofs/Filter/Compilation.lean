import GraphViews.Filter.Constraint
import GraphViews.Proofs.Filter.Refinement
import GraphViews.Proofs.Filter.TypeSafety

/-!
# Compiled filters

A constraint tests a record by the truth of its expression. What is compiled from a text is simplified, and
still answers as the text does. Where a remainder is undefined the comparison around it does not hold, however
often it is negated.
-/

namespace GraphViews.Filter

open Fallible

namespace Constraint

variable {c : Context} {e : Expr} {k : Constraint}

theorem ofExpr_ok (h : ofExpr e c = .ok k) : Expr.Known c e ∧ k.context = c ∧ k.expr = e := by
  unfold ofExpr at h
  split at h
  · rename_i code hcode
    cases h
    exact ⟨Expr.known_of_resolve hcode, rfl, rfl⟩
  · cases h

theorem test_eq (h : ofExpr e c = .ok k) (r : List Int64) : k.test r = Expr.truth c r e := by
  obtain ⟨-, rfl, rfl⟩ := ofExpr_ok h
  obtain ⟨-, hcode⟩ := Expr.resolve_eq_ok.mp k.resolved
  rw [test, hcode]
  rfl

theorem exists_ofExpr (h : Expr.Known c e) : ∃ k, ofExpr e c = .ok k := by
  unfold ofExpr
  split
  · exact ⟨_, rfl⟩
  · rename_i hf
    rw [Expr.resolve_of_known h] at hf
    cases hf

end Constraint

theorem compile_ok {text : String} {c : Context} {k : Constraint} :
    compile text c = .ok k ↔ ∃ e, parse text = .ok e ∧ check e c = .ok () ∧
      Constraint.ofExpr (Expr.simplify e) c = .ok k := by
  constructor
  · intro h
    obtain ⟨e, hp, h⟩ := bind_eq_ok.mp h
    obtain ⟨_, hc, h⟩ := bind_eq_ok.mp h
    refine ⟨e, hp, hc, ?_⟩
    split at h
    · rename_i hk
      cases h
      exact hk
    · cases h
  · rintro ⟨e, hp, hc, hk⟩
    simp [compile, hp, hc, hk]

theorem exists_compile_iff {text : String} {c : Context} :
    (∃ k, compile text c = .ok k) ↔ ∃ e, parse text = .ok e ∧ check e c = .ok () := by
  constructor
  · rintro ⟨k, hk⟩
    obtain ⟨e, hp, hc, -⟩ := compile_ok.mp hk
    exact ⟨e, hp, hc⟩
  · rintro ⟨e, hp, hc⟩
    have hknown := (Expr.refines_simplify c e).known (known_of_kindOf (check_ok.mp hc))
    obtain ⟨k, hk⟩ := Constraint.exists_ofExpr hknown
    exact ⟨k, compile_ok.mpr ⟨e, hp, hc, hk⟩⟩

/-- On a full record the constraint of a text has an answer, and it is that of the text as it is written. -/
theorem test_of_compile {text : String} {c : Context} {k : Constraint} (h : compile text c = .ok k) :
    k.context = c ∧ ∃ e, parse text = .ok e ∧ check e c = .ok () ∧
      ∀ r : List Int64, c.fields.length ≤ r.length →
        ∃ t, Expr.truth c r e = .ok t ∧ k.test r = .ok t := by
  obtain ⟨e, hp, hc, hk⟩ := compile_ok.mp h
  refine ⟨(Constraint.ofExpr_ok hk).2.1, e, hp, hc, ?_⟩
  intro r hr
  obtain ⟨t, ht⟩ := Expr.exists_truth hc hr
  refine ⟨t, ht, ?_⟩
  rw [Constraint.test_eq hk]
  exact (Expr.refines_simplify c e).truth r t ht

/-- Simplification never changes what a filter means. Whatever the constraint of an expression answers, the
constraint of the simplified expression answers too, on records of any length and also for expressions that are
not well typed. So a compiled text answers every full record exactly as the text does. -/
theorem simplify_keeps_meaning :
    (∀ (e : Expr) (c : Context), Expr.Known c e →
      ∃ k k', Constraint.ofExpr e c = .ok k ∧ Constraint.ofExpr (Expr.simplify e) c = .ok k' ∧
        ∀ (r : List Int64) (t : Bool), k.test r = .ok t → k'.test r = .ok t) ∧
    ∀ (text : String) (c : Context) (k' : Constraint), compile text c = .ok k' →
      ∃ e k, parse text = .ok e ∧ Constraint.ofExpr e c = .ok k ∧
        ∀ r : List Int64, c.fields.length ≤ r.length →
          ∃ t, k.test r = .ok t ∧ k'.test r = .ok t := by
  constructor
  · intro e c he
    have hr := Expr.refines_simplify c e
    obtain ⟨k, hk⟩ := Constraint.exists_ofExpr he
    obtain ⟨k', hk'⟩ := Constraint.exists_ofExpr (hr.known he)
    refine ⟨k, k', hk, hk', ?_⟩
    intro r t h
    rw [Constraint.test_eq hk] at h
    rw [Constraint.test_eq hk']
    exact hr.truth r t h
  · intro text c k' h
    obtain ⟨-, e, hp, hc, htest⟩ := test_of_compile h
    obtain ⟨k, hk⟩ := Constraint.exists_ofExpr (known_of_kindOf (check_ok.mp hc))
    refine ⟨e, k, hp, hk, ?_⟩
    intro r hr
    rw [Constraint.test_eq hk]
    exact htest r hr

/-- A remainder by zero under three negations: two of them go, the third stays. -/
theorem simplify_keeps_undefined_remainder :
    (∃ k k', Constraint.ofExpr (.not (.not (.not (.cmp .eq (.mod (.field "vid") (.field "vlabel")) (.int 0)))))
        .vertex = .ok k ∧
      Constraint.ofExpr (.not (.cmp .eq (.mod (.field "vid") (.field "vlabel")) (.int 0)))
        .vertex = .ok k' ∧
      k.test [4, 0] = .ok true ∧ k'.test [4, 0] = .ok true) ∧
    ∃ k', compile "!!!(vid % vlabel == 0)" .vertex = .ok k' ∧ k'.test [4, 0] = .ok true := by
  constructor
  · obtain ⟨k, k', hk, hk', h⟩ := simplify_keeps_meaning.1
      (.not (.not (.not (.cmp .eq (.mod (.field "vid") (.field "vlabel")) (.int 0))))) .vertex
      (by unfold Expr.Known; decide)
    have ht : k.test [4, 0] = .ok true := by
      rw [Constraint.test_eq hk]
      rfl
    exact ⟨k, k', hk, hk', ht, h _ _ ht⟩
  · have h : (compile "!!!(vid % vlabel == 0)" .vertex).toOption.bind
        (fun k => (k.test [4, 0]).toOption) = some true := by decide +kernel
    cases hc : compile "!!!(vid % vlabel == 0)" .vertex with
    | error f => simp [hc, Except.toOption] at h
    | ok k' =>
      obtain ⟨e, k, -, -, htest⟩ := simplify_keeps_meaning.2 _ _ _ hc
      obtain ⟨t, -, ht⟩ := htest [4, 0] (by decide)
      refine ⟨k', rfl, ?_⟩
      simp only [hc, ht, Except.toOption, Option.bind_some, Option.some.injEq] at h
      rw [ht, h]

end GraphViews.Filter
