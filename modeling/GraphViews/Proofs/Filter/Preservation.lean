import GraphViews.Proofs.Filter.Compilation

/-!
# Checked expressions stay checked

Simplification swaps, drops and folds parts of an expression, and never changes its kind. So what was checked
resolves and is evaluated without a misplaced term, before simplification and after it.
-/

namespace GraphViews.Filter

variable {c : Context}

namespace Expr

variable {a b : Expr}

private theorem kindOf_conjoin (ha : kindOf c a = .ok .boolean) (hb : kindOf c b = .ok .boolean) :
    kindOf c (conjoin a b) = .ok .boolean := by
  unfold conjoin
  split
  case h_1 => rfl
  case h_2 => rfl
  case h_3 => exact hb
  case h_4 => exact ha
  case h_5 => exact kindOf_and.mpr ⟨ha, hb, rfl⟩

private theorem kindOf_disjoin (ha : kindOf c a = .ok .boolean) (hb : kindOf c b = .ok .boolean) :
    kindOf c (disjoin a b) = .ok .boolean := by
  unfold disjoin
  split
  case h_1 => rfl
  case h_2 => rfl
  case h_3 => exact hb
  case h_4 => exact ha
  case h_5 => exact kindOf_or.mpr ⟨ha, hb, rfl⟩

private theorem kindOf_negate (ha : kindOf c a = .ok .boolean) : kindOf c (negate a) = .ok .boolean := by
  unfold negate
  split
  case h_1 => rfl
  case h_2 a => exact (kindOf_not.mp ha).1
  case h_3 op a b =>
    split
    case isTrue => exact kindOf_cmp.mpr (kindOf_cmp.mp ha)
    case isFalse => exact kindOf_not.mpr ⟨ha, rfl⟩
  case h_4 => exact kindOf_not.mpr ⟨ha, rfl⟩

private theorem kindOf_compareBy (op : CmpOp) (ha : kindOf c a = .ok .integer)
    (hb : kindOf c b = .ok .integer) : kindOf c (compareBy op a b) = .ok .boolean := by
  unfold compareBy
  split
  case h_1 => rfl
  case h_2 => exact kindOf_cmp.mpr ⟨ha, hb, rfl⟩

private theorem kindOf_reduceMod (ha : kindOf c a = .ok .integer) (hb : kindOf c b = .ok .integer) :
    kindOf c (reduceMod a b) = .ok .integer := by
  unfold reduceMod
  split
  case h_1 =>
    split
    case h_1 => rfl
    case h_2 => exact kindOf_mod.mpr ⟨ha, hb, rfl⟩
  case h_2 => exact kindOf_mod.mpr ⟨ha, hb, rfl⟩

theorem kindOf_simplify {e : Expr} {k : Kind} (h : kindOf c e = .ok k) :
    kindOf c (simplify e) = .ok k := by
  induction e generalizing k with
  | field x => exact h
  | int n => exact h
  | bool b => exact h
  | and a b iha ihb =>
    obtain ⟨ha, hb, rfl⟩ := kindOf_and.mp h
    exact kindOf_conjoin (iha ha) (ihb hb)
  | or a b iha ihb =>
    obtain ⟨ha, hb, rfl⟩ := kindOf_or.mp h
    exact kindOf_disjoin (iha ha) (ihb hb)
  | not a iha =>
    obtain ⟨ha, rfl⟩ := kindOf_not.mp h
    exact kindOf_negate (iha ha)
  | cmp op a b iha ihb =>
    obtain ⟨ha, hb, rfl⟩ := kindOf_cmp.mp h
    exact kindOf_compareBy op (iha ha) (ihb hb)
  | mod a b iha ihb =>
    obtain ⟨ha, hb, rfl⟩ := kindOf_mod.mp h
    exact kindOf_reduceMod (iha ha) (ihb hb)

theorem check_simplify {e : Expr} (h : check e c = .ok ()) : check (simplify e) c = .ok () :=
  check_ok.mpr (kindOf_simplify (check_ok.mp h))

end Expr

/-- The constraint answers every full record. On a shorter one its only fault is to read a field past the end. -/
structure Constraint.Safe (k : Constraint) : Prop where
  answers : ∀ r : List Int64, k.context.fields.length ≤ r.length → ∃ t, k.test r = .ok t
  faults : ∀ (r : List Int64) (f : Fault), k.test r = .error f →
    ∃ i, r.length ≤ i ∧ i < k.context.fields.length ∧ f = .outOfBounds r.length i

/-- A checked expression resolves, and its constraint is safe. -/
theorem Constraint.exists_safe {e : Expr} (h : check e c = .ok ()) :
    ∃ k, ofExpr e c = .ok k ∧ k.context = c ∧ k.Safe := by
  have hk := check_ok.mp h
  obtain ⟨k, hofExpr⟩ := exists_ofExpr (known_of_kindOf hk)
  obtain ⟨-, hc, -⟩ := ofExpr_ok hofExpr
  have hs (r : List Int64) : ShortOnly k.context r (k.test r) := by
    rw [test_eq hofExpr, hc]
    exact (Expr.shortOnly_of_kindOf c r e).2 hk
  refine ⟨k, hofExpr, hc, ?_, ?_⟩
  · intro r hr
    exact (hs r).exists_ok hr
  · intro r f hf
    exact hs r f hf

/-- An expression that passes the check passes it again once simplified, and either way it resolves to a
constraint over the same records that is safe. -/
theorem check_ensures_safety {e : Expr} {c : Context} (h : check e c = .ok ()) :
    check (Expr.simplify e) c = .ok () ∧
    ∀ e' ∈ [e, Expr.simplify e], ∃ k, Constraint.ofExpr e' c = .ok k ∧ k.context = c ∧ k.Safe := by
  have hs := Expr.check_simplify h
  refine ⟨hs, ?_⟩
  intro e' he
  simp only [List.mem_cons, List.not_mem_nil, or_false] at he
  rcases he with rfl | rfl
  · exact Constraint.exists_safe h
  · exact Constraint.exists_safe hs

/-- A doubly negated comparison with a remainder by a field: two records that are too short, and a full one
on which the remainder is undefined. -/
theorem check_ensures_safety_short :
    let e : Expr := .and (.not (.not (.cmp .lt (.mod (.field "vid") (.field "vlabel")) (.int 1)))) (.bool true)
    check e .vertex = .ok () ∧ check (Expr.simplify e) .vertex = .ok () ∧
      ∃ k, Constraint.ofExpr (Expr.simplify e) .vertex = .ok k ∧ k.Safe ∧
        k.test [] = .error (.outOfBounds 0 0) ∧ k.test [4] = .error (.outOfBounds 1 1) ∧
        k.test [4, 0] = .ok false := by
  intro e
  have h : check e .vertex = .ok () := rfl
  obtain ⟨hs, hk⟩ := check_ensures_safety h
  obtain ⟨k, hofExpr, -, hsafe⟩ := hk (Expr.simplify e) (by simp)
  refine ⟨h, hs, k, hofExpr, hsafe, ?_, ?_, ?_⟩
  all_goals
    rw [Constraint.test_eq hofExpr]
    rfl

end GraphViews.Filter
