import GraphViews.Proofs.Filter.Preservation

/-!
# The normal form of expressions

A term can be reduced if it is an operation whose outcome its operands, as they are written, already decide. Simplified
expressions have no such term in them, and those that have none are left as they are. So one pass is enough: what a rule
makes of two normal operands is normal again.
-/

namespace GraphViews.Filter

/-- The term and all terms in it. -/
def Term.subterms {φ ι : Type} : Term φ ι → List (Term φ ι)
  | .field x => [.field x]
  | .int n => [.int n]
  | .bool b => [.bool b]
  | .not a => .not a :: a.subterms
  | .and a b => .and a b :: (a.subterms ++ b.subterms)
  | .or a b => .or a b :: (a.subterms ++ b.subterms)
  | .cmp op a b => .cmp op a b :: (a.subterms ++ b.subterms)
  | .mod a b => .mod a b :: (a.subterms ++ b.subterms)

namespace Expr

/-- A term that is no remainder, or the remainder of a total term by a number that has one for every dividend. -/
inductive Total : Expr → Prop where
  | other {e : Expr} (h : ∀ a b, e ≠ .mod a b) : Total e
  | mod {a : Expr} {n : Int64} (ha : Total a) (hz : n ≠ 0) (ho : n ≠ -1) : Total (.mod a (.int n))

/-- The terms that are not left as they are, once their operands are. -/
inductive Reducible : Expr → Prop where
  | andLeft (t : Bool) (b : Expr) : Reducible (.and (.bool t) b)
  | andRight (a : Expr) (t : Bool) : Reducible (.and a (.bool t))
  | orLeft (t : Bool) (b : Expr) : Reducible (.or (.bool t) b)
  | orRight (a : Expr) (t : Bool) : Reducible (.or a (.bool t))
  | cmp (op : CmpOp) (x y : Int64) : Reducible (.cmp op (.int x) (.int y))
  | mod {x y : Int64} (h : (remainder? x y).isSome) : Reducible (.mod (.int x) (.int y))
  | notBool (t : Bool) : Reducible (.not (.bool t))
  | notNot (a : Expr) : Reducible (.not (.not a))
  | notCmp (op : CmpOp) {a b : Expr} (ha : Total a) (hb : Total b) : Reducible (.not (.cmp op a b))

/-- Nothing in the expression can be reduced. -/
def Normal (e : Expr) : Prop := ∀ t ∈ e.subterms, ¬Reducible t

/-- No term in the expression is an integer without a value on the record. -/
def Defined (c : Context) (r : List Int64) (e : Expr) : Prop := ∀ t ∈ e.subterms, value c r t ≠ .ok none

variable {a b : Expr} {op : CmpOp}

section Operands

variable {P : Expr → Prop} {e : Expr}

theorem forall_subterms_not :
    (∀ t ∈ (Term.not a : Expr).subterms, P t) ↔ P (.not a) ∧ ∀ t ∈ a.subterms, P t :=
  List.forall_mem_cons

theorem forall_subterms_of_eq (h : e.subterms = e :: (a.subterms ++ b.subterms)) :
    (∀ t ∈ e.subterms, P t) ↔ P e ∧ (∀ t ∈ a.subterms, P t) ∧ ∀ t ∈ b.subterms, P t := by
  rw [h, List.forall_mem_cons, List.forall_mem_append]

end Operands

theorem normal_not : Normal (.not a) ↔ ¬Reducible (.not a) ∧ Normal a := forall_subterms_not

theorem normal_and : Normal (.and a b) ↔ ¬Reducible (.and a b) ∧ Normal a ∧ Normal b :=
  forall_subterms_of_eq rfl

theorem normal_or : Normal (.or a b) ↔ ¬Reducible (.or a b) ∧ Normal a ∧ Normal b :=
  forall_subterms_of_eq rfl

theorem normal_cmp : Normal (.cmp op a b) ↔ ¬Reducible (.cmp op a b) ∧ Normal a ∧ Normal b :=
  forall_subterms_of_eq rfl

theorem normal_mod : Normal (.mod a b) ↔ ¬Reducible (.mod a b) ∧ Normal a ∧ Normal b :=
  forall_subterms_of_eq rfl

theorem normal_field (x : String) : Normal (.field x) := by
  intro t ht
  cases List.mem_singleton.mp ht
  exact nofun

theorem normal_int (n : Int64) : Normal (.int n) := by
  intro t ht
  cases List.mem_singleton.mp ht
  exact nofun

theorem normal_bool (t : Bool) : Normal (.bool t) := by
  intro t' ht
  cases List.mem_singleton.mp ht
  exact nofun

theorem isTotal_iff (e : Expr) : isTotal e = true ↔ Total e := by
  induction e with
  | mod a b iha ihb =>
    cases b with
    | int n =>
      simp only [isTotal, Bool.and_eq_true, bne_iff_ne, iha]
      constructor
      · intro h
        exact .mod h.1.1 h.1.2 h.2
      · intro h
        cases h with
        | other h => exact absurd rfl (h _ _)
        | mod ha hz ho => exact ⟨⟨ha, hz⟩, ho⟩
    | _ =>
      apply iff_of_false
      · simp [isTotal]
      · intro h
        cases h with
        | other h => exact h _ _ rfl
  | _ =>
    apply iff_of_true rfl
    apply Total.other
    intro a b h
    cases h

private theorem conjoin_cases (a b : Expr) :
    (Reducible (.and a b) ∧ (conjoin a b = .bool false ∨ conjoin a b = a ∨ conjoin a b = b)) ∨
      (¬Reducible (.and a b) ∧ conjoin a b = .and a b) := by
  unfold conjoin
  split
  case h_1 => exact .inl ⟨.andLeft _ _, .inl rfl⟩
  case h_2 => exact .inl ⟨.andRight _ _, .inl rfl⟩
  case h_3 => exact .inl ⟨.andLeft _ _, .inr (.inr rfl)⟩
  case h_4 => exact .inl ⟨.andRight _ _, .inr (.inl rfl)⟩
  case h_5 hff htt hfr htr =>
    refine .inr ⟨?_, rfl⟩
    intro h
    cases h with
    | andLeft t =>
      cases t with
      | false => exact hff rfl
      | true => exact htt rfl
    | andRight _ t =>
      cases t with
      | false => exact hfr rfl
      | true => exact htr rfl

private theorem disjoin_cases (a b : Expr) :
    (Reducible (.or a b) ∧ (disjoin a b = .bool true ∨ disjoin a b = a ∨ disjoin a b = b)) ∨
      (¬Reducible (.or a b) ∧ disjoin a b = .or a b) := by
  unfold disjoin
  split
  case h_1 => exact .inl ⟨.orLeft _ _, .inl rfl⟩
  case h_2 => exact .inl ⟨.orRight _ _, .inl rfl⟩
  case h_3 => exact .inl ⟨.orLeft _ _, .inr (.inr rfl)⟩
  case h_4 => exact .inl ⟨.orRight _ _, .inr (.inl rfl)⟩
  case h_5 htt hff htr hfr =>
    refine .inr ⟨?_, rfl⟩
    intro h
    cases h with
    | orLeft t =>
      cases t with
      | false => exact hff rfl
      | true => exact htt rfl
    | orRight _ t =>
      cases t with
      | false => exact hfr rfl
      | true => exact htr rfl

private theorem negate_cases (a : Expr) :
    (Reducible (.not a) ∧ ((∃ t, negate a = .bool t) ∨ a = .not (negate a) ∨
        ∃ op x y, a = .cmp op x y ∧ negate a = .cmp op.negate x y)) ∨
      (¬Reducible (.not a) ∧ negate a = .not a) := by
  cases a with
  | bool t => exact .inl ⟨.notBool t, .inl ⟨_, rfl⟩⟩
  | not a => exact .inl ⟨.notNot a, .inr (.inl rfl)⟩
  | cmp op x y =>
    rw [negate]
    split
    case isTrue ht =>
      simp only [Bool.and_eq_true, isTotal_iff] at ht
      exact .inl ⟨.notCmp op ht.1 ht.2, .inr (.inr ⟨op, x, y, rfl, rfl⟩)⟩
    case isFalse ht =>
      refine .inr ⟨?_, rfl⟩
      intro h
      cases h with
      | notCmp _ hx hy => simp [isTotal_iff, hx, hy] at ht
  | _ => exact .inr ⟨nofun, rfl⟩

private theorem compareBy_cases (op : CmpOp) (a b : Expr) :
    (Reducible (.cmp op a b) ∧ ∃ t, compareBy op a b = .bool t) ∨
      (¬Reducible (.cmp op a b) ∧ compareBy op a b = .cmp op a b) := by
  unfold compareBy
  split
  case h_1 x y => exact .inl ⟨.cmp op x y, _, rfl⟩
  case h_2 hn =>
    refine .inr ⟨?_, rfl⟩
    intro h
    cases h with
    | cmp _ x y => exact hn x y rfl rfl

private theorem reduceMod_cases (a b : Expr) :
    (Reducible (.mod a b) ∧ ∃ n, reduceMod a b = .int n) ∨
      (¬Reducible (.mod a b) ∧ reduceMod a b = .mod a b) := by
  unfold reduceMod
  split
  case h_1 x y =>
    cases hz : remainder? x y with
    | some z => exact .inl ⟨.mod (by rw [hz]; rfl), z, rfl⟩
    | none =>
      refine .inr ⟨?_, rfl⟩
      intro h
      cases h with
      | mod h => simp [hz] at h
  case h_2 hn =>
    refine .inr ⟨?_, rfl⟩
    intro h
    cases h with
    | @mod x y _ => exact hn x y rfl rfl

private theorem normal_conjoin (ha : Normal a) (hb : Normal b) : Normal (conjoin a b) := by
  rcases conjoin_cases a b with ⟨-, h | h | h⟩ | ⟨hr, h⟩ <;> rw [h]
  · exact normal_bool false
  · exact ha
  · exact hb
  · exact normal_and.mpr ⟨hr, ha, hb⟩

private theorem normal_disjoin (ha : Normal a) (hb : Normal b) : Normal (disjoin a b) := by
  rcases disjoin_cases a b with ⟨-, h | h | h⟩ | ⟨hr, h⟩ <;> rw [h]
  · exact normal_bool true
  · exact ha
  · exact hb
  · exact normal_or.mpr ⟨hr, ha, hb⟩

private theorem normal_negate (ha : Normal a) : Normal (negate a) := by
  rcases negate_cases a with ⟨-, ⟨t, h⟩ | h | ⟨op, x, y, rfl, h⟩⟩ | ⟨hr, h⟩
  · rw [h]
    exact normal_bool t
  · rw [h] at ha
    exact (normal_not.mp ha).2
  · rw [h]
    refine normal_cmp.mpr ⟨?_, (normal_cmp.mp ha).2⟩
    intro hred
    cases hred with
    | cmp _ x y => exact (normal_cmp.mp ha).1 (.cmp op x y)
  · rw [h]
    exact normal_not.mpr ⟨hr, ha⟩

private theorem normal_compareBy (op : CmpOp) (ha : Normal a) (hb : Normal b) : Normal (compareBy op a b) := by
  rcases compareBy_cases op a b with ⟨-, t, h⟩ | ⟨hr, h⟩ <;> rw [h]
  · exact normal_bool t
  · exact normal_cmp.mpr ⟨hr, ha, hb⟩

private theorem normal_reduceMod (ha : Normal a) (hb : Normal b) : Normal (reduceMod a b) := by
  rcases reduceMod_cases a b with ⟨-, n, h⟩ | ⟨hr, h⟩ <;> rw [h]
  · exact normal_int n
  · exact normal_mod.mpr ⟨hr, ha, hb⟩

/-- From the inside out every term becomes normal. -/
theorem normal_simplify (e : Expr) : Normal (simplify e) := by
  induction e with
  | field x => exact normal_field x
  | int n => exact normal_int n
  | bool t => exact normal_bool t
  | and a b iha ihb => exact normal_conjoin iha ihb
  | or a b iha ihb => exact normal_disjoin iha ihb
  | not a iha => exact normal_negate iha
  | cmp op a b iha ihb => exact normal_compareBy op iha ihb
  | mod a b iha ihb => exact normal_reduceMod iha ihb

/-- The operands of a normal operation are left as they are, and then so is the operation. -/
theorem simplify_of_normal {e : Expr} (h : Normal e) : simplify e = e := by
  induction e with
  | field x => rfl
  | int n => rfl
  | bool t => rfl
  | and a b iha ihb =>
    have hn := normal_and.mp h
    rw [simplify, iha hn.2.1, ihb hn.2.2]
    exact ((conjoin_cases a b).resolve_left fun hr => hn.1 hr.1).2
  | or a b iha ihb =>
    have hn := normal_or.mp h
    rw [simplify, iha hn.2.1, ihb hn.2.2]
    exact ((disjoin_cases a b).resolve_left fun hr => hn.1 hr.1).2
  | not a iha =>
    have hn := normal_not.mp h
    rw [simplify, iha hn.2]
    exact ((negate_cases a).resolve_left fun hr => hn.1 hr.1).2
  | cmp op a b iha ihb =>
    have hn := normal_cmp.mp h
    rw [simplify, iha hn.2.1, ihb hn.2.2]
    exact ((compareBy_cases op a b).resolve_left fun hr => hn.1 hr.1).2
  | mod a b iha ihb =>
    have hn := normal_mod.mp h
    rw [simplify, iha hn.2.1, ihb hn.2.2]
    exact ((reduceMod_cases a b).resolve_left fun hr => hn.1 hr.1).2

theorem simplify_eq_self_iff {e : Expr} : simplify e = e ↔ Normal e := by
  constructor
  · intro h
    rw [← h]
    exact normal_simplify e
  · exact simplify_of_normal

def TruthFree (e : Expr) : Prop := ∀ t, .bool t ∉ e.subterms

variable {c : Context} {e : Expr} {k : Kind}

private theorem ne_bool_of_integer (h : kindOf c e = .ok .integer) (t : Bool) : e ≠ .bool t := by
  intro he
  rw [he] at h
  cases h

namespace TruthFree

private theorem of_not_literal (h : (∃ t, e = .bool t) ∨ TruthFree e) (he : ∀ t, e ≠ .bool t) : TruthFree e := by
  apply h.resolve_left
  intro ⟨t, ht⟩
  exact he t ht

theorem not (ha : TruthFree a) : TruthFree (.not a) := by
  intro t
  simp [Term.subterms, ha t]

private theorem of_operands (he : ∀ t, e ≠ .bool t) (hs : e.subterms = e :: (a.subterms ++ b.subterms))
    (ha : TruthFree a) (hb : TruthFree b) : TruthFree e := by
  intro t
  rw [hs]
  simp [(he t).symm, ha t, hb t]

end TruthFree

/-- In a normal expression a truth value stands under no operation: those on truth values would be reducible, and
those on integers take none. -/
theorem literal_or_truthFree (hk : kindOf c e = .ok k) (hn : Normal e) : (∃ t, e = .bool t) ∨ TruthFree e := by
  induction e generalizing k with
  | field x => exact .inr fun t => by simp [Term.subterms]
  | int n => exact .inr fun t => by simp [Term.subterms]
  | bool t => exact .inl ⟨t, rfl⟩
  | and a b iha ihb =>
    have hab := kindOf_and.mp hk
    have hred := normal_and.mp hn
    right
    refine TruthFree.of_operands (a := a) (b := b) nofun rfl ?_ ?_
    · apply TruthFree.of_not_literal (iha hab.1 hred.2.1)
      rintro t rfl
      exact hred.1 (.andLeft t b)
    · apply TruthFree.of_not_literal (ihb hab.2.1 hred.2.2)
      rintro t rfl
      exact hred.1 (.andRight a t)
  | or a b iha ihb =>
    have hab := kindOf_or.mp hk
    have hred := normal_or.mp hn
    right
    refine TruthFree.of_operands (a := a) (b := b) nofun rfl ?_ ?_
    · apply TruthFree.of_not_literal (iha hab.1 hred.2.1)
      rintro t rfl
      exact hred.1 (.orLeft t b)
    · apply TruthFree.of_not_literal (ihb hab.2.1 hred.2.2)
      rintro t rfl
      exact hred.1 (.orRight a t)
  | not a iha =>
    have hred := normal_not.mp hn
    right
    apply TruthFree.not
    apply TruthFree.of_not_literal (iha (kindOf_not.mp hk).1 hred.2)
    rintro t rfl
    exact hred.1 (.notBool t)
  | cmp op a b iha ihb =>
    have hab := kindOf_cmp.mp hk
    have hred := normal_cmp.mp hn
    right
    refine TruthFree.of_operands (a := a) (b := b) nofun rfl ?_ ?_
    · exact .of_not_literal (iha hab.1 hred.2.1) (ne_bool_of_integer hab.1)
    · exact .of_not_literal (ihb hab.2.1 hred.2.2) (ne_bool_of_integer hab.2.1)
  | mod a b iha ihb =>
    have hab := kindOf_mod.mp hk
    have hred := normal_mod.mp hn
    right
    refine TruthFree.of_operands (a := a) (b := b) nofun rfl ?_ ?_
    · exact .of_not_literal (iha hab.1 hred.2.1) (ne_bool_of_integer hab.1)
    · exact .of_not_literal (ihb hab.2.1 hred.2.2) (ne_bool_of_integer hab.2.1)

@[simp] theorem conjoin_bool (s t : Bool) : conjoin (.bool s) (.bool t) = .bool (s && t) := by
  cases s <;> cases t <;> rfl

@[simp] theorem disjoin_bool (s t : Bool) : disjoin (.bool s) (.bool t) = .bool (s || t) := by
  cases s <;> cases t <;> rfl

/-- The expression is simplified to the number that it is on every record. -/
def FoldsToInt (c : Context) (e : Expr) : Prop :=
  ∃ n, simplify e = .int n ∧ ∀ r, value c r e = .ok (some n)

def FoldsToBool (c : Context) (e : Expr) : Prop :=
  ∃ t, simplify e = .bool t ∧ ∀ r, truth c r e = .ok t

theorem FoldsToBool.and (ha : FoldsToBool c a) (hb : FoldsToBool c b) : FoldsToBool c (.and a b) := by
  obtain ⟨s, hs, hsr⟩ := ha
  obtain ⟨t, ht, htr⟩ := hb
  refine ⟨s && t, by rw [simplify, hs, ht, conjoin_bool], ?_⟩
  intro r
  cases s <;> simp [truth_and, hsr, htr]

theorem FoldsToBool.or (ha : FoldsToBool c a) (hb : FoldsToBool c b) : FoldsToBool c (.or a b) := by
  obtain ⟨s, hs, hsr⟩ := ha
  obtain ⟨t, ht, htr⟩ := hb
  refine ⟨s || t, by rw [simplify, hs, ht, disjoin_bool], ?_⟩
  intro r
  cases s <;> simp [truth_or, hsr, htr]

theorem FoldsToBool.not (ha : FoldsToBool c a) : FoldsToBool c (.not a) := by
  obtain ⟨t, ht, htr⟩ := ha
  refine ⟨!t, by rw [simplify, ht, negate], ?_⟩
  intro r
  simp [truth_not, htr]

theorem FoldsToInt.cmp (ha : FoldsToInt c a) (hb : FoldsToInt c b) : FoldsToBool c (.cmp op a b) := by
  obtain ⟨x, hx, hxr⟩ := ha
  obtain ⟨y, hy, hyr⟩ := hb
  refine ⟨op.apply x y, by rw [simplify, hx, hy, compareBy], ?_⟩
  intro r
  exact truth_cmp.mpr ⟨some x, some y, hxr r, hyr r, rfl⟩

/-- A remainder that has a value on one record has the same value on all. -/
theorem FoldsToInt.mod {r : List Int64} (ha : FoldsToInt c a) (hb : FoldsToInt c b)
    (hr : value c r (.mod a b) ≠ .ok none) : FoldsToInt c (.mod a b) := by
  obtain ⟨x, hx, hxr⟩ := ha
  obtain ⟨y, hy, hyr⟩ := hb
  have hvalue (r : List Int64) : value c r (.mod a b) = .ok (remainder? x y) :=
    value_mod.mpr (.inr ⟨x, some y, hxr r, hyr r, rfl⟩)
  cases hz : remainder? x y with
  | none => exact absurd (hz ▸ hvalue r) hr
  | some z =>
    refine ⟨z, by simp [simplify, hx, hy, reduceMod, hz], ?_⟩
    intro r
    rw [hvalue r, hz]

/-- Without fields and without undefined remainders a term of either kind is folded to what it is. -/
theorem folds_of_kindOf {r : List Int64} (hn : e.names = []) (hd : Defined c r e) :
    (kindOf c e = .ok .integer → FoldsToInt c e) ∧ (kindOf c e = .ok .boolean → FoldsToBool c e) := by
  induction e with
  | field x => cases hn
  | int n => exact ⟨fun _ => ⟨n, rfl, fun _ => rfl⟩, nofun⟩
  | bool t => exact ⟨nofun, fun _ => ⟨t, rfl, fun _ => rfl⟩⟩
  | and a b iha ihb =>
    have hab := List.append_eq_nil_iff.mp hn
    have hdab := (forall_subterms_of_eq rfl).mp hd
    refine ⟨fun h => absurd (kindOf_and.mp h).2.2 nofun, ?_⟩
    intro h
    have hk := kindOf_and.mp h
    exact ((iha hab.1 hdab.2.1).2 hk.1).and ((ihb hab.2 hdab.2.2).2 hk.2.1)
  | or a b iha ihb =>
    have hab := List.append_eq_nil_iff.mp hn
    have hdab := (forall_subterms_of_eq rfl).mp hd
    refine ⟨fun h => absurd (kindOf_or.mp h).2.2 nofun, ?_⟩
    intro h
    have hk := kindOf_or.mp h
    exact ((iha hab.1 hdab.2.1).2 hk.1).or ((ihb hab.2 hdab.2.2).2 hk.2.1)
  | not a iha =>
    have hda := forall_subterms_not.mp hd
    refine ⟨fun h => absurd (kindOf_not.mp h).2 nofun, ?_⟩
    intro h
    exact ((iha hn hda.2).2 (kindOf_not.mp h).1).not
  | cmp op a b iha ihb =>
    have hab := List.append_eq_nil_iff.mp hn
    have hdab := (forall_subterms_of_eq rfl).mp hd
    refine ⟨fun h => absurd (kindOf_cmp.mp h).2.2 nofun, ?_⟩
    intro h
    have hk := kindOf_cmp.mp h
    exact ((iha hab.1 hdab.2.1).1 hk.1).cmp ((ihb hab.2 hdab.2.2).1 hk.2.1)
  | mod a b iha ihb =>
    have hab := List.append_eq_nil_iff.mp hn
    have hdab := (forall_subterms_of_eq rfl).mp hd
    refine ⟨?_, fun h => absurd (kindOf_mod.mp h).2.2 nofun⟩
    intro h
    have hk := kindOf_mod.mp h
    exact ((iha hab.1 hdab.2.1).1 hk.1).mod ((ihb hab.2 hdab.2.2).1 hk.2.1) hdab.1

end Expr

/-- Simplification reaches the normal form in one pass, leaves exactly the normal expressions as they are, and changes
nothing when it is repeated. What was checked becomes a truth value or has none written in it; and without fields and
undefined remainders it becomes the truth that it has. -/
theorem simplify_normalises (e : Expr) :
    Expr.Normal (Expr.simplify e) ∧ (Expr.simplify e = e ↔ Expr.Normal e) ∧
    Expr.simplify (Expr.simplify e) = Expr.simplify e ∧
    ∀ c, check e c = .ok () →
      ((∃ t, Expr.simplify e = .bool t) ∨ ∀ t, .bool t ∉ (Expr.simplify e).subterms) ∧
      ∀ r, e.names = [] → Expr.Defined c r e →
        ∃ t, Expr.simplify e = .bool t ∧ ∀ r', Expr.truth c r' e = .ok t := by
  have hnormal := Expr.normal_simplify e
  refine ⟨hnormal, Expr.simplify_eq_self_iff, Expr.simplify_of_normal hnormal, ?_⟩
  intro c hc
  have hk := check_ok.mp hc
  constructor
  · exact Expr.literal_or_truthFree (Expr.kindOf_simplify hk) hnormal
  · intro r hn hd
    exact (Expr.folds_of_kindOf hn hd).2 hk

/-- `!(7 % 2 == 1) || 4 <= 9 % 5` names no field and is true on every vertex; in `vid % 0 == 0 && !!(vlabel == 7 % 4)`
the remainder by zero stays, and so does what it is compared with. -/
theorem simplify_normalises_folding :
    let closed : Expr := .or (.not (.cmp .eq (.mod (.int 7) (.int 2)) (.int 1)))
      (.cmp .le (.int 4) (.mod (.int 9) (.int 5)))
    let stuck : Expr := .cmp .eq (.mod (.field "vid") (.int 0)) (.int 0)
    let opened : Expr := .and stuck (.not (.not (.cmp .eq (.field "vlabel") (.mod (.int 7) (.int 4)))))
    (∃ t, Expr.simplify closed = .bool t ∧ ∀ r, Expr.truth .vertex r closed = .ok t) ∧
      Expr.simplify opened = .and stuck (.cmp .eq (.field "vlabel") (.int 3)) ∧
      ((∃ t, Expr.simplify opened = .bool t) ∨ ∀ t, .bool t ∉ (Expr.simplify opened).subterms) := by
  intro closed stuck opened
  have hdefined : Expr.Defined .vertex [] closed := by
    simp only [Expr.Defined, closed, Term.subterms, List.forall_mem_cons, List.forall_mem_append]
    and_intros
    all_goals nofun
  refine ⟨?_, by decide, ?_⟩
  · exact ((simplify_normalises closed).2.2.2 .vertex rfl).2 [] rfl hdefined
  · exact ((simplify_normalises opened).2.2.2 .vertex rfl).1

end GraphViews.Filter
