import GraphViews.Proofs.Filter.Classification
import GraphViews.Proofs.Filter.Compilation

/-!
# Why a text is rejected

A text is rejected for what stands in it: because it cannot be read, or because its terms do not fit together. No
contract is broken on the way.
-/

namespace GraphViews.Filter

open Fallible

variable {c : Context}

private theorem parse_ne_fault (text : String) (fault : Fault) : parse text ≠ .error (.fault fault) := by
  by_cases h : ∃ ts x, Derivation text ts x
  · obtain ⟨ts, x, h⟩ := h
    rw [parse_of_laid h.worded h.derives]
    exact x.resolve_reported.ne_fault fault
  · obtain ⟨failure, hf⟩ := parse_of_not_derived h
    rw [hf]
    exact nofun

private theorem demand_eq_fault {k : Kind} {e : Expr} {x : Except FilterError Kind} {fault : Fault}
    (h : demand k e x = .error (.fault fault)) : x = .error (.fault fault) := by
  unfold demand at h
  split at h
  · split at h <;> cases h
  · rw [Except.error.inj h]

private theorem operands_ne_fault {wanted found : Kind} {a b : Expr} {fault : Fault}
    (ha : kindOf c a ≠ .error (.fault fault)) (hb : kindOf c b ≠ .error (.fault fault)) :
    (do demand wanted a (kindOf c a); demand wanted b (kindOf c b); return found) ≠
      (.error (.fault fault) : Except FilterError Kind) := by
  intro h
  rcases bind_eq_error.mp h with h | ⟨_, -, h⟩
  · exact ha (demand_eq_fault h)
  · rcases bind_eq_error.mp h with h | ⟨_, -, h⟩
    · exact hb (demand_eq_fault h)
    · cases h

private theorem kindOf_ne_fault (c : Context) (e : Expr) (fault : Fault) : kindOf c e ≠ .error (.fault fault) := by
  induction e with
  | field x =>
    rw [kindOf]
    split <;> exact nofun
  | int n => exact nofun
  | bool b => exact nofun
  | and a b iha ihb => exact operands_ne_fault iha ihb
  | or a b iha ihb => exact operands_ne_fault iha ihb
  | not a iha =>
    intro h
    rcases bind_eq_error.mp h with h | ⟨_, -, h⟩
    · exact iha (demand_eq_fault h)
    · cases h
  | cmp op a b iha ihb => exact operands_ne_fault iha ihb
  | mod a b iha ihb => exact operands_ne_fault iha ihb

/-- What is parsed and well typed has only fields that are known, and the others are rejected with a reason. -/
theorem compile_ne_fault (text : String) (c : Context) (fault : Fault) :
    compile text c ≠ .error (.fault fault) := by
  intro h
  by_cases hk : ∃ e, parse text = .ok e ∧ check e c = .ok ()
  · obtain ⟨k, hk⟩ := exists_compile_iff.mpr hk
    rw [hk] at h
    cases h
  · rcases bind_eq_error.mp h with h | ⟨e, hp, h⟩
    · exact parse_ne_fault text fault h
    · rcases bind_eq_error.mp h with h | ⟨_, hc, -⟩
      · exact kindOf_ne_fault c e fault (demand_eq_fault h)
      · exact hk ⟨e, hp, hc⟩

end GraphViews.Filter
