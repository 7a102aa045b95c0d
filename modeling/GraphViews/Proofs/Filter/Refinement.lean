import GraphViews.Filter.Simplify
import GraphViews.Proofs.Filter.Meaning

/-!
# Simplified expressions keep what the original says

An expression refines another if it gives every value and every truth that the other gives. It may give more:
what is folded away is no longer evaluated. Refinement passes through every kind of term, so each rule of
simplification is shown for itself.
-/

namespace GraphViews.Filter

theorem CmpOp.apply_negate (op : CmpOp) (x y : Int64) :
    op.negate.apply x y = !op.apply x y := by
  cases op <;> simp [CmpOp.negate, CmpOp.apply, bne, ← decide_not]

private theorem isSome_remainder {x y : Int64} (hz : y ≠ 0) (ho : y ≠ -1) : (remainder? x y).isSome := by
  simp [remainder?, hz, ho]

namespace Expr

/-- What `e` gives on any record, `e'` gives too, and it has no other fields. -/
structure Refines (c : Context) (e e' : Expr) : Prop where
  names : ∀ x ∈ e'.names, x ∈ e.names
  value : ∀ r v, value c r e = .ok v → value c r e' = .ok v
  truth : ∀ r t, truth c r e = .ok t → truth c r e' = .ok t

namespace Refines

variable {c : Context} {a b d a' b' : Expr}

theorem refl (c : Context) (e : Expr) : Refines c e e :=
  ⟨fun _ h => h, fun _ _ h => h, fun _ _ h => h⟩

theorem trans (h : Refines c a b) (h' : Refines c b d) : Refines c a d :=
  ⟨fun x hx => h.names x (h'.names x hx), fun r v hv => h'.value r v (h.value r v hv),
    fun r t ht => h'.truth r t (h.truth r t ht)⟩

theorem known (h : Refines c a b) (ha : Known c a) : Known c b :=
  fun x hx => ha x (h.names x hx)

private theorem names_append (ha : Refines c a a') (hb : Refines c b b') (x : String)
    (h : x ∈ a'.names ++ b'.names) : x ∈ a.names ++ b.names :=
  List.mem_append.mpr ((List.mem_append.mp h).imp (ha.names x) (hb.names x))

theorem of_truth (hn : ∀ x ∈ b.names, x ∈ a.names)
    (hv : ∀ r, Expr.value c r a = .error .misplacedTerm)
    (ht : ∀ r t, Expr.truth c r a = .ok t → Expr.truth c r b = .ok t) : Refines c a b := by
  refine ⟨hn, ?_, ht⟩
  intro r v h
  rw [hv r] at h
  cases h

theorem and (ha : Refines c a a') (hb : Refines c b b') :
    Refines c (.and a b) (.and a' b') := by
  refine of_truth (names_append ha hb) (fun _ => rfl) ?_
  intro r t h
  rcases truth_and.mp h with ⟨h, ht⟩ | ⟨h, ht⟩
  · exact truth_and.mpr (.inl ⟨ha.truth r _ h, ht⟩)
  · exact truth_and.mpr (.inr ⟨ha.truth r _ h, hb.truth r _ ht⟩)

theorem or (ha : Refines c a a') (hb : Refines c b b') : Refines c (.or a b) (.or a' b') := by
  refine of_truth (names_append ha hb) (fun _ => rfl) ?_
  intro r t h
  rcases truth_or.mp h with ⟨h, ht⟩ | ⟨h, ht⟩
  · exact truth_or.mpr (.inl ⟨ha.truth r _ h, ht⟩)
  · exact truth_or.mpr (.inr ⟨ha.truth r _ h, hb.truth r _ ht⟩)

theorem not (ha : Refines c a a') : Refines c (.not a) (.not a') := by
  refine of_truth ha.names (fun _ => rfl) ?_
  intro r t h
  exact truth_not.mpr (ha.truth r _ (truth_not.mp h))

theorem cmp (op : CmpOp) (ha : Refines c a a') (hb : Refines c b b') :
    Refines c (.cmp op a b) (.cmp op a' b') := by
  refine of_truth (names_append ha hb) (fun _ => rfl) ?_
  intro r t h
  obtain ⟨x, y, hx, hy, ht⟩ := truth_cmp.mp h
  exact truth_cmp.mpr ⟨x, y, ha.value r x hx, hb.value r y hy, ht⟩

theorem mod (ha : Refines c a a') (hb : Refines c b b') :
    Refines c (.mod a b) (.mod a' b') := by
  refine ⟨names_append ha hb, ?_, fun r t h => by cases h⟩
  intro r v h
  rcases value_mod.mp h with ⟨hx, hv⟩ | ⟨x, y, hx, hy, hv⟩
  · exact value_mod.mpr (.inl ⟨ha.value r _ hx, hv⟩)
  · exact value_mod.mpr (.inr ⟨x, y, ha.value r _ hx, hb.value r y hy, hv⟩)

end Refines

private theorem refines_conjoin (c : Context) (a b : Expr) : Refines c (.and a b) (conjoin a b) := by
  refine .of_truth ?_ (fun _ => rfl) ?_
  · unfold conjoin
    split <;> simp +contextual [Term.names]
  · intro r t h
    have h := truth_and.mp h
    unfold conjoin
    split
    case h_1 => simp_all
    case h_2 => rcases h with ⟨-, rfl⟩ | ⟨-, h⟩ <;> simp_all
    case h_3 => simpa using h
    case h_4 => rcases h with ⟨h, rfl⟩ | ⟨ha, h⟩ <;> simp_all
    case h_5 => exact truth_and.mpr h

private theorem refines_disjoin (c : Context) (a b : Expr) : Refines c (.or a b) (disjoin a b) := by
  refine .of_truth ?_ (fun _ => rfl) ?_
  · unfold disjoin
    split <;> simp +contextual [Term.names]
  · intro r t h
    have h := truth_or.mp h
    unfold disjoin
    split
    case h_1 => simp_all
    case h_2 => rcases h with ⟨-, rfl⟩ | ⟨-, h⟩ <;> simp_all
    case h_3 => simpa using h
    case h_4 => rcases h with ⟨h, rfl⟩ | ⟨ha, h⟩ <;> simp_all
    case h_5 => exact truth_or.mpr h

/-- A total term has a value wherever it can be read at all. -/
theorem isSome_of_isTotal {c : Context} {e : Expr} (ht : isTotal e) {r : List Int64}
    {v : Option Int64} (h : value c r e = .ok v) : v.isSome := by
  induction e generalizing v with
  | field x =>
    simp only [value, place, Term.rename, Code.evalInt] at h
    split at h
    · cases h
      rfl
    · cases h
  | int n =>
    cases h
    rfl
  | mod a b iha ihb =>
    -- only a literal divisor is total, and neither of the two that may have no remainder
    cases b <;> simp [isTotal] at ht
    obtain ⟨⟨ha, hz⟩, ho⟩ := ht
    rcases value_mod.mp h with ⟨hx, -⟩ | ⟨x, y, -, hy, rfl⟩
    · cases iha ha hx
    · cases hy
      exact isSome_remainder hz ho
  | _ => cases h

private theorem refines_negate (c : Context) (a : Expr) : Refines c (.not a) (negate a) := by
  unfold negate
  split
  case h_1 b =>
    refine .of_truth (by simp [Term.names]) (fun _ => rfl) ?_
    intro r t h
    have h := truth_not.mp h
    simp_all
  case h_2 a =>
    refine .of_truth (fun _ h => h) (fun _ => rfl) ?_
    intro r t h
    have h := truth_not.mp (truth_not.mp h)
    rwa [Bool.not_not] at h
  case h_3 op a b =>
    split
    case isTrue ht =>
      refine .of_truth (fun _ h => h) (fun _ => rfl) ?_
      intro r t h
      obtain ⟨x, y, hx, hy, hxy⟩ := truth_cmp.mp (truth_not.mp h)
      obtain ⟨ha, hb⟩ := Bool.and_eq_true_iff.mp ht
      obtain ⟨x, rfl⟩ := Option.isSome_iff_exists.mp (isSome_of_isTotal ha hx)
      obtain ⟨y, rfl⟩ := Option.isSome_iff_exists.mp (isSome_of_isTotal hb hy)
      refine truth_cmp.mpr ⟨some x, some y, hx, hy, ?_⟩
      rw [CmpOp.holds, op.apply_negate, ← Bool.not_not (b := t), hxy, CmpOp.holds]
    case isFalse => exact .refl c _
  case h_4 => exact .refl c _

private theorem refines_compareBy (c : Context) (op : CmpOp) (a b : Expr) :
    Refines c (.cmp op a b) (compareBy op a b) := by
  unfold compareBy
  split
  case h_1 x y =>
    refine .of_truth (by simp [Term.names]) (fun _ => rfl) ?_
    intro r t h
    obtain ⟨_, _, hx, hy, rfl⟩ := truth_cmp.mp h
    cases hx
    cases hy
    rfl
  case h_2 => exact .refl c _

private theorem refines_reduceMod (c : Context) (a b : Expr) :
    Refines c (.mod a b) (reduceMod a b) := by
  unfold reduceMod
  split
  case h_1 x y =>
    split
    case h_1 z hz =>
      refine ⟨by simp [Term.names], ?_, fun r t h => by cases h⟩
      intro r v h
      rcases value_mod.mp h with ⟨hx, -⟩ | ⟨_, _, hx, hy, rfl⟩
      · cases hx
      · cases hx
        cases hy
        exact congrArg Except.ok hz.symm
    case h_2 => exact .refl c _
  case h_2 => exact .refl c _

/-- Simplification gives every value and truth that the expression gives. -/
theorem refines_simplify (c : Context) (e : Expr) : Refines c e (simplify e) := by
  induction e with
  | field x => exact .refl c _
  | int n => exact .refl c _
  | bool b => exact .refl c _
  | and a b iha ihb => exact (iha.and ihb).trans (refines_conjoin c _ _)
  | or a b iha ihb => exact (iha.or ihb).trans (refines_disjoin c _ _)
  | not a iha => exact iha.not.trans (refines_negate c _)
  | cmp op a b iha ihb => exact (iha.cmp op ihb).trans (refines_compareBy c op _ _)
  | mod a b iha ihb => exact (iha.mod ihb).trans (refines_reduceMod c _ _)

end Expr

end GraphViews.Filter
