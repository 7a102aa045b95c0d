import GraphViews.Proofs.Filter.NormalForm
import Mathlib.Algebra.Ring.Int.Defs

/-!
# The meaning of expressions in unbounded integers

A record of words is also a record of integers, over which an expression has a meaning without any bound. Words leave
that meaning as it is: a remainder is never greater than what it is taken of, so that nothing that is computed leaves
their range, neither on a record nor when constants are folded.
-/

namespace GraphViews.Filter

open Fallible

/-- What division by `y` leaves of `x`: it differs from `x` by a multiple of `y`, is smaller than `y`, and does not lie
on the other side of zero. -/
structure Leaves (x y z : Int) : Prop where
  multiple : y ∣ x - z
  smaller : z.natAbs < y.natAbs
  nonneg : 0 ≤ x → 0 ≤ z
  nonpos : x ≤ 0 → z ≤ 0

/-- The remainder of integers. It is undefined for the divisor zero, and for the least word by minus one. -/
def exactRemainder? (x y : Int) : Option Int :=
  if y = 0 ∨ (x = -2 ^ 63 ∧ y = -1) then none else some (x.tmod y)

/-- A comparison of integers. -/
def CmpOp.exact : CmpOp → Int → Int → Bool
  | eq, x, y => x = y
  | neq, x, y => x ≠ y
  | lt, x, y => x < y
  | le, x, y => x ≤ y
  | gt, x, y => y < x
  | ge, x, y => y ≤ x

def Context.numbers (c : Context) (r : List Int64) (x : String) : Int :=
  ((c.fieldIndex? x).bind fun i => r[i]?).elim 0 Int64.toInt

namespace Expr

/-- The value of an integer term, `none` where a remainder in it is undefined. -/
def exactValue (ρ : String → Int) : Expr → Option Int
  | .field x => some (ρ x)
  | .int n => some n.toInt
  | .mod a b => do exactRemainder? (← exactValue ρ a) (← exactValue ρ b)
  | _ => none

/-- The truth of a condition. A comparison with an undefined side does not hold. -/
def exactTruth (ρ : String → Int) : Expr → Bool
  | .bool t => t
  | .and a b => exactTruth ρ a && exactTruth ρ b
  | .or a b => exactTruth ρ a || exactTruth ρ b
  | .not a => !exactTruth ρ a
  | .cmp op a b =>
    match exactValue ρ a, exactValue ρ b with
    | some x, some y => op.exact x y
    | _, _ => false
  | _ => false

/-- The expression with false in place of every comparison that has an undefined side. -/
def settle (ρ : String → Int) : Expr → Expr
  | .and a b => .and (settle ρ a) (settle ρ b)
  | .or a b => .or (settle ρ a) (settle ρ b)
  | .not a => .not (settle ρ a)
  | .cmp op a b =>
    if (exactValue ρ a).isSome ∧ (exactValue ρ b).isSome then .cmp op a b else .bool false
  | e => e

end Expr

theorem leaves_iff {x y z : Int} (hy : y ≠ 0) : Leaves x y z ↔ x.tmod y = z := by
  constructor
  · intro h
    obtain ⟨q, hq⟩ := h.multiple
    have hsum : z + y * q = x := by omega
    have hsmaller := h.smaller
    rcases Int.le_total 0 x with hx | hx
    · have hz := h.nonneg hx
      exact ((Int.tdiv_tmod_unique hx hy).mpr ⟨hsum, hz, by omega⟩).2
    · have hz := h.nonpos hx
      exact ((Int.tdiv_tmod_unique' hx hy).mpr ⟨hsum, by omega, hz⟩).2
  · rintro rfl
    have habs := Int.natAbs_tmod x y
    have hlt : x.natAbs % y.natAbs < y.natAbs := Nat.mod_lt _ (by omega)
    refine ⟨Int.dvd_self_sub_tmod, by omega, Int.tmod_nonneg y, ?_⟩
    intro hx
    have hneg := Int.tmod_nonneg y (Int.neg_nonneg_of_nonpos hx)
    rw [Int.neg_tmod] at hneg
    omega

private theorem exactRemainder?_eq_some {x y z : Int} :
    exactRemainder? x y = some z ↔ ¬(y = 0 ∨ (x = -2 ^ 63 ∧ y = -1)) ∧ Leaves x y z := by
  unfold exactRemainder?
  by_cases h : y = 0 ∨ (x = -2 ^ 63 ∧ y = -1)
  · rw [if_pos h]
    exact iff_of_false nofun fun hz => hz.1 h
  · have hy : y ≠ 0 := fun hy => h (.inl hy)
    rw [if_neg h, Option.some.injEq, ← leaves_iff hy]
    exact ⟨fun hz => ⟨h, hz⟩, fun hz => hz.2⟩

/-- The remainder of words is that of the integers that they are. -/
theorem remainder?_exact (x y : Int64) :
    (remainder? x y).map Int64.toInt = exactRemainder? x.toInt y.toInt := by
  have hzero : y = 0 ↔ y.toInt = 0 := Int64.toInt_inj.symm
  have hone : y = -1 ↔ y.toInt = -1 := Int64.toInt_inj.symm
  have hleast : x = Int64.minValue ↔ x.toInt = -2 ^ 63 := Int64.toInt_inj.symm
  unfold remainder? exactRemainder?
  by_cases h : y = 0 ∨ (x = Int64.minValue ∧ y = -1)
  · rw [if_pos h, if_pos (by rwa [← hzero, ← hone, ← hleast])]
    rfl
  · rw [if_neg h, if_neg (by rwa [← hzero, ← hone, ← hleast])]
    exact congrArg some (Int64.toInt_mod x y)

theorem CmpOp.apply_exact (op : CmpOp) (x y : Int64) : op.apply x y = op.exact x.toInt y.toInt := by
  rw [Bool.eq_iff_iff]
  cases op with
  | eq | neq => simp [CmpOp.apply, CmpOp.exact, Int64.toInt_inj]
  | lt | gt => simp [CmpOp.apply, CmpOp.exact, Int64.lt_iff_toInt_lt]
  | le | ge => simp [CmpOp.apply, CmpOp.exact, Int64.le_iff_toInt_le]

theorem CmpOp.holds_exact (op : CmpOp) (v w : Option Int64) :
    op.holds v w = match v.map Int64.toInt, w.map Int64.toInt with
      | some x, some y => op.exact x y
      | _, _ => false := by
  rcases v with _ | x
  · rfl
  rcases w with _ | y
  · rfl
  · exact op.apply_exact x y

namespace Expr

variable {c : Context} {r : List Int64} {a b e : Expr} {k : Kind}

private theorem exactValue_of_boolean {ρ : String → Int} (hk : kindOf c e = .ok .boolean) : exactValue ρ e = none := by
  cases e with
  | field x => cases (kindOf_field.mp hk).2
  | int n => cases hk
  | mod a b => cases (kindOf_mod.mp hk).2.2
  | _ => rfl

/-- The term is evaluated, without a fault, to what it means. -/
inductive Exact (c : Context) (r : List Int64) (e : Expr) : Prop where
  | integer {v : Option Int64} (hk : kindOf c e = .ok .integer) (hv : value c r e = .ok v)
      (hm : v.map Int64.toInt = exactValue (c.numbers r) e)
  | boolean (hk : kindOf c e = .ok .boolean) (ht : truth c r e = .ok (exactTruth (c.numbers r) e))

namespace Exact

theorem value_eq (h : Exact c r e) (hk : kindOf c e = .ok .integer) :
    ∃ v, value c r e = .ok v ∧ v.map Int64.toInt = exactValue (c.numbers r) e := by
  cases h with
  | integer _ hv hm => exact ⟨_, hv, hm⟩
  | boolean hk' =>
    rw [hk] at hk'
    cases hk'

theorem truth_eq (h : Exact c r e) (hk : kindOf c e = .ok .boolean) :
    truth c r e = .ok (exactTruth (c.numbers r) e) := by
  cases h with
  | integer hk' =>
    rw [hk] at hk'
    cases hk'
  | boolean _ ht => exact ht

/-- The value of a term is the integer of a word. -/
theorem in_range (h : Exact c r e) {n : Int} (hn : exactValue (c.numbers r) e = some n) :
    -2 ^ 63 ≤ n ∧ n < 2 ^ 63 := by
  cases h with
  | integer _ _ hm =>
    rw [hn] at hm
    obtain ⟨w, -, rfl⟩ := Option.map_eq_some_iff.mp hm
    exact ⟨w.le_toInt, w.toInt_lt⟩
  | boolean hk =>
    rw [exactValue_of_boolean hk] at hn
    cases hn

private theorem value_ne_none (h : Exact c r e) (hs : (exactValue (c.numbers r) e).isSome) :
    value c r e ≠ .ok none := by
  intro hnone
  cases h with
  | integer _ hv hm =>
    obtain rfl := Except.ok.inj (hv.symm.trans hnone)
    rw [← hm] at hs
    cases hs
  | boolean hk =>
    rw [exactValue_of_boolean hk] at hs
    cases hs

theorem field (x : String) (hk : kindOf c (.field x) = .ok k) (hr : c.fields.length ≤ r.length) :
    Exact c r (.field x) := by
  obtain ⟨hx, rfl⟩ := kindOf_field.mp hk
  obtain ⟨i, hi⟩ := Option.isSome_iff_exists.mp hx
  have hlt : i < r.length := Nat.lt_of_lt_of_le (Context.lt_of_fieldIndex? hi) hr
  have hget : r[i]? = some r[i] := List.getElem?_eq_getElem hlt
  apply Exact.integer (v := some r[i]) hk
  · simp only [value, place, Term.rename, Code.evalInt, hi, Option.getD_some, hget]
  · simp only [exactValue, Context.numbers, hi, Option.bind_some, hget, Option.elim_some, Option.map_some]

theorem mod (hk : kindOf c (.mod a b) = .ok .integer) (ha : Exact c r a) (hb : Exact c r b) :
    Exact c r (.mod a b) := by
  obtain ⟨hka, hkb, -⟩ := kindOf_mod.mp hk
  obtain ⟨v, hv, hmv⟩ := ha.value_eq hka
  obtain ⟨w, hw, hmw⟩ := hb.value_eq hkb
  apply Exact.integer (v := v.bind fun x => w.bind (remainder? x)) hk
  · rw [value_mod_eq, hv]
    cases v with
    | none => rfl
    | some x => rw [ok_bind, hw]; rfl
  · rw [exactValue, ← hmv, ← hmw]
    rcases v with _ | x
    · rfl
    rcases w with _ | y
    · rfl
    · exact remainder?_exact x y

theorem cmp {op : CmpOp} (hk : kindOf c (.cmp op a b) = .ok .boolean) (ha : Exact c r a) (hb : Exact c r b) :
    Exact c r (.cmp op a b) := by
  obtain ⟨hka, hkb, -⟩ := kindOf_cmp.mp hk
  obtain ⟨v, hv, hmv⟩ := ha.value_eq hka
  obtain ⟨w, hw, hmw⟩ := hb.value_eq hkb
  apply Exact.boolean hk
  rw [truth_cmp_eq, hv, ok_bind, hw, ok_bind, exactTruth, ← hmv, ← hmw, op.holds_exact v w]
  rfl

end Exact

/-- On a full record every term that has a kind is evaluated to what it means. -/
theorem exact_of_kindOf (hr : c.fields.length ≤ r.length) (hk : kindOf c e = .ok k) : Exact c r e := by
  induction e generalizing k with
  | field x => exact .field x hk hr
  | int n => exact .integer rfl rfl rfl
  | bool t => exact .boolean rfl rfl
  | and a b iha ihb =>
    obtain ⟨ha, hb, rfl⟩ := kindOf_and.mp hk
    apply Exact.boolean hk
    rw [truth_and_eq, (iha ha).truth_eq ha, ok_bind, (ihb hb).truth_eq hb, exactTruth]
    cases exactTruth (c.numbers r) a <;> rfl
  | or a b iha ihb =>
    obtain ⟨ha, hb, rfl⟩ := kindOf_or.mp hk
    apply Exact.boolean hk
    rw [truth_or_eq, (iha ha).truth_eq ha, ok_bind, (ihb hb).truth_eq hb, exactTruth]
    cases exactTruth (c.numbers r) a <;> rfl
  | not a iha =>
    obtain ⟨ha, rfl⟩ := kindOf_not.mp hk
    apply Exact.boolean hk
    rw [truth_not_eq, (iha ha).truth_eq ha]
    rfl
  | cmp op a b iha ihb =>
    obtain ⟨ha, hb, rfl⟩ := kindOf_cmp.mp hk
    exact .cmp hk (iha ha) (ihb hb)
  | mod a b iha ihb =>
    obtain ⟨ha, hb, rfl⟩ := kindOf_mod.mp hk
    exact .mod hk (iha ha) (ihb hb)

private theorem kindOf_subterms (hk : kindOf c e = .ok k) : ∀ t ∈ e.subterms, ∃ k, kindOf c t = .ok k := by
  induction e generalizing k with
  | field x | int n | bool t => exact List.forall_mem_singleton.mpr ⟨k, hk⟩
  | not a iha => exact forall_subterms_not.mpr ⟨⟨k, hk⟩, iha (kindOf_not.mp hk).1⟩
  | and a b iha ihb =>
    obtain ⟨ha, hb, -⟩ := kindOf_and.mp hk
    exact (forall_subterms_of_eq rfl).mpr ⟨⟨k, hk⟩, iha ha, ihb hb⟩
  | or a b iha ihb =>
    obtain ⟨ha, hb, -⟩ := kindOf_or.mp hk
    exact (forall_subterms_of_eq rfl).mpr ⟨⟨k, hk⟩, iha ha, ihb hb⟩
  | cmp op a b iha ihb =>
    obtain ⟨ha, hb, -⟩ := kindOf_cmp.mp hk
    exact (forall_subterms_of_eq rfl).mpr ⟨⟨k, hk⟩, iha ha, ihb hb⟩
  | mod a b iha ihb =>
    obtain ⟨ha, hb, -⟩ := kindOf_mod.mp hk
    exact (forall_subterms_of_eq rfl).mpr ⟨⟨k, hk⟩, iha ha, ihb hb⟩

private theorem exactTruth_settle (ρ : String → Int) (e : Expr) : exactTruth ρ (settle ρ e) = exactTruth ρ e := by
  induction e with
  | field x | int n | bool t | mod a b => rfl
  | not a iha => rw [settle, exactTruth, exactTruth, iha]
  | and a b iha ihb => rw [settle, exactTruth, exactTruth, iha, ihb]
  | or a b iha ihb => rw [settle, exactTruth, exactTruth, iha, ihb]
  | cmp op a b =>
    unfold settle
    split
    case isTrue => rfl
    case isFalse h =>
      simp only [exactTruth]
      split
      case h_1 x y hx hy => exact absurd (by simp [hx, hy]) h
      case h_2 => rfl

private theorem kindOf_settle (ρ : String → Int) (hk : kindOf c e = .ok k) : kindOf c (settle ρ e) = .ok k := by
  induction e generalizing k with
  | field x | int n | bool t | mod a b => exact hk
  | not a iha =>
    obtain ⟨ha, rfl⟩ := kindOf_not.mp hk
    exact kindOf_not.mpr ⟨iha ha, rfl⟩
  | and a b iha ihb =>
    obtain ⟨ha, hb, rfl⟩ := kindOf_and.mp hk
    exact kindOf_and.mpr ⟨iha ha, ihb hb, rfl⟩
  | or a b iha ihb =>
    obtain ⟨ha, hb, rfl⟩ := kindOf_or.mp hk
    exact kindOf_or.mpr ⟨iha ha, ihb hb, rfl⟩
  | cmp op a b =>
    unfold settle
    split
    case isTrue => exact hk
    case isFalse =>
      obtain ⟨-, -, rfl⟩ := kindOf_cmp.mp hk
      rfl

theorem defined_of_isSome (hr : c.fields.length ≤ r.length) (hk : kindOf c e = .ok .integer)
    (hs : (exactValue (c.numbers r) e).isSome) : Defined c r e := by
  induction e with
  | field x => exact List.forall_mem_singleton.mpr ((exact_of_kindOf hr hk).value_ne_none hs)
  | int n => exact List.forall_mem_singleton.mpr nofun
  | mod a b iha ihb =>
    obtain ⟨hka, hkb, -⟩ := kindOf_mod.mp hk
    obtain ⟨z, hz⟩ := Option.isSome_iff_exists.mp hs
    obtain ⟨x, hx, hz⟩ := Option.bind_eq_some_iff.mp hz
    obtain ⟨y, hy, -⟩ := Option.bind_eq_some_iff.mp hz
    refine (forall_subterms_of_eq rfl).mpr ⟨?_, ?_, ?_⟩
    · exact (exact_of_kindOf hr hk).value_ne_none hs
    · exact iha hka (Option.isSome_of_eq_some hx)
    · exact ihb hkb (Option.isSome_of_eq_some hy)
  | bool t => cases hk
  | not a => cases (kindOf_not.mp hk).2
  | and a b => cases (kindOf_and.mp hk).2.2
  | or a b => cases (kindOf_or.mp hk).2.2
  | cmp op a b => cases (kindOf_cmp.mp hk).2.2

/-- Nothing undefined is left once the comparisons with an undefined side are gone. -/
theorem defined_settle (hr : c.fields.length ≤ r.length) (hk : kindOf c e = .ok .boolean) :
    Defined c r (settle (c.numbers r) e) := by
  induction e with
  | bool t => exact List.forall_mem_singleton.mpr nofun
  | not a iha => exact forall_subterms_not.mpr ⟨nofun, iha (kindOf_not.mp hk).1⟩
  | and a b iha ihb =>
    obtain ⟨ha, hb, -⟩ := kindOf_and.mp hk
    exact (forall_subterms_of_eq rfl).mpr ⟨nofun, iha ha, ihb hb⟩
  | or a b iha ihb =>
    obtain ⟨ha, hb, -⟩ := kindOf_or.mp hk
    exact (forall_subterms_of_eq rfl).mpr ⟨nofun, iha ha, ihb hb⟩
  | cmp op a b =>
    obtain ⟨hka, hkb, -⟩ := kindOf_cmp.mp hk
    unfold settle
    split
    case isTrue hab =>
      exact (forall_subterms_of_eq rfl).mpr
        ⟨nofun, defined_of_isSome hr hka hab.1, defined_of_isSome hr hkb hab.2⟩
    case isFalse => exact List.forall_mem_singleton.mpr nofun
  | field x => cases (kindOf_field.mp hk).2
  | int n => cases hk
  | mod a b => cases (kindOf_mod.mp hk).2.2

end Expr

theorem Constraint.exists_exact {c : Context} {r : List Int64} {e : Expr} (hc : check e c = .ok ())
    (hr : c.fields.length ≤ r.length) :
    ∃ k, ofExpr e c = .ok k ∧ k.test r = .ok (Expr.exactTruth (c.numbers r) e) := by
  have hk := check_ok.mp hc
  obtain ⟨k, hofExpr⟩ := exists_ofExpr (known_of_kindOf hk)
  refine ⟨k, hofExpr, ?_⟩
  rw [test_eq hofExpr]
  exact (Expr.exact_of_kindOf hr hk).truth_eq hk

/-- Simplification keeps what a checked expression means on a full record. -/
theorem Expr.exactTruth_simplify {c : Context} {r : List Int64} {e : Expr} (hc : check e c = .ok ())
    (hr : c.fields.length ≤ r.length) :
    exactTruth (c.numbers r) (simplify e) = exactTruth (c.numbers r) e := by
  have hk := check_ok.mp hc
  have htruth := (exact_of_kindOf hr hk).truth_eq hk
  have hsimplified := (exact_of_kindOf hr (kindOf_simplify hk)).truth_eq (kindOf_simplify hk)
  rw [(refines_simplify c e).truth r _ htruth] at hsimplified
  exact (Except.ok.inj hsimplified).symm

/-- On a full record a checked expression is tested by its truth in unbounded integers, as it is written, simplified,
or compiled from its text. Every term of it is evaluated to what it means and without a fault, and so is every term that
simplification makes of it; no value leaves the range of words. The remainder is the one that is left on the side of the
dividend and is smaller than the divisor, and it is undefined in two cases only. What is undefined is felt in the next
comparison and no further: with false in its place nothing undefined is left, and the test answers the same. -/
theorem evaluates_exactly {e : Expr} {c : Context} {r : List Int64} (hc : check e c = .ok ())
    (hr : c.fields.length ≤ r.length) :
    let ρ := c.numbers r
    let answer := Expr.exactTruth ρ e
    (∀ e' ∈ [e, Expr.simplify e], ∃ k, Constraint.ofExpr e' c = .ok k ∧ k.test r = .ok answer) ∧
    (∀ text, parse text = .ok e → ∃ k, compile text c = .ok k ∧ k.test r = .ok answer) ∧
    (∀ e' ∈ [e, Expr.simplify e], ∀ t ∈ e'.subterms, Expr.Exact c r t ∧
      ∀ n, Expr.exactValue ρ t = some n → -2 ^ 63 ≤ n ∧ n < 2 ^ 63) ∧
    (∀ x y z, exactRemainder? x y = some z ↔ ¬(y = 0 ∨ (x = -2 ^ 63 ∧ y = -1)) ∧ Leaves x y z) ∧
    Expr.Defined c r (Expr.settle ρ e) ∧
    ∃ k, Constraint.ofExpr (Expr.settle ρ e) c = .ok k ∧ k.test r = .ok answer := by
  intro ρ answer
  have hk := check_ok.mp hc
  have hcs := Expr.check_simplify hc
  have hwritten := Constraint.exists_exact hc hr
  have hsimplified := Constraint.exists_exact hcs hr
  rw [Expr.exactTruth_simplify hc hr] at hsimplified
  have hterms {e' : Expr} (he' : check e' c = .ok ()) (t : Expr) (ht : t ∈ e'.subterms) :
      Expr.Exact c r t ∧ ∀ n, Expr.exactValue ρ t = some n → -2 ^ 63 ≤ n ∧ n < 2 ^ 63 := by
    obtain ⟨k, hkt⟩ := Expr.kindOf_subterms (check_ok.mp he') t ht
    have hexact := Expr.exact_of_kindOf hr hkt
    exact ⟨hexact, fun n => hexact.in_range⟩
  refine ⟨?_, ?_, ?_, ?_, Expr.defined_settle hr hk, ?_⟩
  · simpa using ⟨hwritten, hsimplified⟩
  · intro text hp
    obtain ⟨k, hofExpr, ht⟩ := hsimplified
    exact ⟨k, compile_ok.mpr ⟨e, hp, hc, hofExpr⟩, ht⟩
  · simpa using ⟨hterms hc, hterms hcs⟩
  · intro x y z
    exact exactRemainder?_eq_some
  · have hsettled := Constraint.exists_exact (check_ok.mpr (Expr.kindOf_settle ρ hk)) hr
    rwa [Expr.exactTruth_settle] at hsettled

/-- `!(-9223372036854775808 % vid % -7 == -1) && 9 % -4 == 1` on two vertices. For the id `-1` the remainder is
undefined; for the id 10 it is `-8`, of which `-7` leaves `-1`. The second comparison is folded away. -/
theorem evaluates_exactly_chained :
    let chain : Expr := .mod (.mod (.int (-9223372036854775808)) (.field "vid")) (.int (-7))
    let e : Expr := .and (.not (.cmp .eq chain (.int (-1)))) (.cmp .eq (.mod (.int 9) (.int (-4))) (.int 1))
    Expr.simplify e = .not (.cmp .eq chain (.int (-1))) ∧
    (∃ k, Constraint.ofExpr (Expr.simplify e) .vertex = .ok k ∧ k.test [-1, 0] = .ok true) ∧
    (∃ k, Constraint.ofExpr (Expr.simplify e) .vertex = .ok k ∧ k.test [10, 0] = .ok false) ∧
    Expr.exactValue (Context.vertex.numbers [-1, 0]) chain = none ∧
    Expr.exactValue (Context.vertex.numbers [10, 0]) chain = some (-1) := by
  intro chain e
  have hc : check e .vertex = .ok () := rfl
  have hundefined := (evaluates_exactly hc (r := [-1, 0]) (by decide)).1 (Expr.simplify e) (by simp)
  have hdefined := (evaluates_exactly hc (r := [10, 0]) (by decide)).1 (Expr.simplify e) (by simp)
  exact ⟨by decide, hundefined, hdefined, by decide, by decide⟩

end GraphViews.Filter
