import GraphViews.Filter.Typing
import GraphViews.Proofs.Filter.Meaning

/-!
# Checked expressions have a truth

A term of the right kind is never evaluated in the wrong way. The only fault left is a record that is too
short for a field, so on a full record a checked expression is true or false.
-/

namespace GraphViews.Filter

open Fallible

theorem Context.lt_of_fieldIndex? {c : Context} {x : String} {i : Nat}
    (h : c.fieldIndex? x = some i) : i < c.fields.length :=
  (List.findIdx?_eq_some_iff_findIdx_eq.mp h).1

private theorem demand_ok {k : Kind} {e : Expr} {x : Except FilterError Kind} {u : Unit} :
    demand k e x = .ok u ↔ x = .ok k := by
  rcases x with err | k'
  · simp [demand]
  · by_cases h : k' = k <;> simp [demand, h]

theorem check_ok {c : Context} {e : Expr} : check e c = .ok () ↔ kindOf c e = .ok .boolean :=
  demand_ok

section Kinds

variable {c : Context} {a b : Expr} {k : Kind}

theorem kindOf_field {x : String} :
    kindOf c (.field x) = .ok k ↔ (c.fieldIndex? x).isSome ∧ k = .integer := by
  change (if (c.fieldIndex? x).isSome then .ok .integer else .error (FilterError.unknownField c x)) =
    Except.ok k ↔ _
  by_cases h : (c.fieldIndex? x).isSome <;> simp [h, @eq_comm _ k]

private theorem operands_ok {wanted kind : Kind} :
    (do
      demand wanted a (kindOf c a)
      demand wanted b (kindOf c b)
      return kind) = .ok k ↔
      kindOf c a = .ok wanted ∧ kindOf c b = .ok wanted ∧ k = kind := by
  simp [bind_eq_ok, demand_ok, @eq_comm _ k]

theorem kindOf_and :
    kindOf c (.and a b) = .ok k ↔
      kindOf c a = .ok .boolean ∧ kindOf c b = .ok .boolean ∧ k = .boolean :=
  operands_ok

theorem kindOf_or :
    kindOf c (.or a b) = .ok k ↔
      kindOf c a = .ok .boolean ∧ kindOf c b = .ok .boolean ∧ k = .boolean :=
  operands_ok

theorem kindOf_not : kindOf c (.not a) = .ok k ↔ kindOf c a = .ok .boolean ∧ k = .boolean := by
  change (do demand .boolean a (kindOf c a); return .boolean) = Except.ok k ↔ _
  simp [bind_eq_ok, demand_ok, @eq_comm _ k]

theorem kindOf_cmp {op : CmpOp} :
    kindOf c (.cmp op a b) = .ok k ↔
      kindOf c a = .ok .integer ∧ kindOf c b = .ok .integer ∧ k = .boolean :=
  operands_ok

theorem kindOf_mod :
    kindOf c (.mod a b) = .ok k ↔
      kindOf c a = .ok .integer ∧ kindOf c b = .ok .integer ∧ k = .integer :=
  operands_ok

end Kinds

/-- The fields of a term that has a kind are known. -/
theorem known_of_kindOf {c : Context} {e : Expr} {k : Kind} (h : kindOf c e = .ok k) :
    Expr.Known c e := by
  induction e generalizing k with
  | field x =>
    intro y hy
    obtain rfl := List.mem_singleton.mp hy
    exact (kindOf_field.mp h).1
  | int n => simp [Expr.Known, Term.names]
  | bool b => simp [Expr.Known, Term.names]
  | not a ih => exact ih (kindOf_not.mp h).1
  | and a b iha ihb =>
    obtain ⟨ha, hb, -⟩ := kindOf_and.mp h
    exact (Expr.known_append rfl).mpr ⟨iha ha, ihb hb⟩
  | or a b iha ihb =>
    obtain ⟨ha, hb, -⟩ := kindOf_or.mp h
    exact (Expr.known_append rfl).mpr ⟨iha ha, ihb hb⟩
  | cmp op a b iha ihb =>
    obtain ⟨ha, hb, -⟩ := kindOf_cmp.mp h
    exact (Expr.known_append rfl).mpr ⟨iha ha, ihb hb⟩
  | mod a b iha ihb =>
    obtain ⟨ha, hb, -⟩ := kindOf_mod.mp h
    exact (Expr.known_append rfl).mpr ⟨iha ha, ihb hb⟩

/-- The only fault is to read a field that lies past the end of the record. -/
def ShortOnly {α : Type} (c : Context) (r : List Int64) (x : Except Fault α) : Prop :=
  ∀ f, x = .error f → ∃ i, r.length ≤ i ∧ i < c.fields.length ∧ f = .outOfBounds r.length i

namespace ShortOnly

variable {α β : Type} {c : Context} {r : List Int64}

theorem ok (c : Context) (r : List Int64) (a : α) : ShortOnly c r (.ok a) := by
  intro f h
  cases h

theorem bind {x : Except Fault α} {g : α → Except Fault β} (hx : ShortOnly c r x)
    (hg : ∀ a, ShortOnly c r (g a)) : ShortOnly c r (x >>= g) := by
  cases x with
  | error f =>
    intro f' h
    cases h
    exact hx f rfl
  | ok a => exact hg a

theorem exists_ok {x : Except Fault α} (hx : ShortOnly c r x) (hr : c.fields.length ≤ r.length) :
    ∃ a, x = .ok a := by
  cases x with
  | ok a => exact ⟨a, rfl⟩
  | error f =>
    obtain ⟨i, hi, hc, -⟩ := hx f rfl
    omega

end ShortOnly

namespace Expr

variable {c : Context} {e : Expr}

/-- A term of either kind, evaluated as what it is, fails on short records only. -/
theorem shortOnly_of_kindOf (c : Context) (r : List Int64) (e : Expr) :
    (kindOf c e = .ok .integer → ShortOnly c r (value c r e)) ∧
      (kindOf c e = .ok .boolean → ShortOnly c r (truth c r e)) := by
  induction e with
  | field x =>
    constructor
    · intro h f hf
      obtain ⟨i, hi⟩ := Option.isSome_iff_exists.mp (kindOf_field.mp h).1
      simp only [value, place, Term.rename, Code.evalInt, hi, Option.getD_some] at hf
      split at hf
      · cases hf
      · rename_i hn
        cases hf
        exact ⟨i, List.getElem?_eq_none_iff.mp hn, Context.lt_of_fieldIndex? hi, rfl⟩
    · intro h
      cases (kindOf_field.mp h).2
  | int n =>
    constructor
    · intro _
      exact .ok c r _
    · intro h
      cases h
  | bool t =>
    constructor
    · intro h
      cases h
    · intro _
      exact .ok c r t
  | and a b iha ihb =>
    constructor
    · intro h
      cases (kindOf_and.mp h).2.2
    · intro h
      obtain ⟨ha, hb, -⟩ := kindOf_and.mp h
      rw [truth_and_eq]
      refine .bind (iha.2 ha) fun t => ?_
      cases t with
      | false => exact .ok c r false
      | true => exact ihb.2 hb
  | or a b iha ihb =>
    constructor
    · intro h
      cases (kindOf_or.mp h).2.2
    · intro h
      obtain ⟨ha, hb, -⟩ := kindOf_or.mp h
      rw [truth_or_eq]
      refine .bind (iha.2 ha) fun t => ?_
      cases t with
      | false => exact ihb.2 hb
      | true => exact .ok c r true
  | not a iha =>
    constructor
    · intro h
      cases (kindOf_not.mp h).2
    · intro h
      rw [truth_not_eq]
      exact .bind (iha.2 (kindOf_not.mp h).1) fun t => .ok c r !t
  | cmp op a b iha ihb =>
    constructor
    · intro h
      cases (kindOf_cmp.mp h).2.2
    · intro h
      obtain ⟨ha, hb, -⟩ := kindOf_cmp.mp h
      rw [truth_cmp_eq]
      exact .bind (iha.1 ha) fun x => .bind (ihb.1 hb) fun y => .ok c r _
  | mod a b iha ihb =>
    constructor
    · intro h
      obtain ⟨ha, hb, -⟩ := kindOf_mod.mp h
      rw [value_mod_eq]
      refine .bind (iha.1 ha) fun x => ?_
      cases x with
      | none => exact .ok c r none
      | some x => exact .bind (ihb.1 hb) fun y => .ok c r _
    · intro h
      cases (kindOf_mod.mp h).2.2

/-- On a full record a checked expression is true or false. -/
theorem exists_truth (h : check e c = .ok ()) {r : List Int64} (hr : c.fields.length ≤ r.length) :
    ∃ t, truth c r e = .ok t :=
  ((shortOnly_of_kindOf c r e).2 (check_ok.mp h)).exists_ok hr

end Expr

end GraphViews.Filter
