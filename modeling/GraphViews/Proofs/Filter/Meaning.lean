import GraphViews.Filter.Evaluation
import GraphViews.Proofs.Fallible

/-!
# The meaning of expressions

An expression is read against the records of a context through the code it resolves to. Here are its value as
an integer term and its truth as a condition, and for each kind of term what a result says of its parts.
-/

namespace GraphViews.Filter

open Fallible

/-- The fields of a term, from left to right. -/
def Term.names {φ ι : Type} : Term φ ι → List φ
  | .field x => [x]
  | .int _ | .bool _ => []
  | .not a => a.names
  | .and a b | .or a b | .cmp _ a b | .mod a b => a.names ++ b.names

def Term.rename {φ ψ ι : Type} (f : φ → ψ) : Term φ ι → Term ψ ι
  | .field x => .field (f x)
  | .int n => .int n
  | .bool b => .bool b
  | .and a b => .and (a.rename f) (b.rename f)
  | .or a b => .or (a.rename f) (b.rename f)
  | .not a => .not (a.rename f)
  | .cmp op a b => .cmp op (a.rename f) (b.rename f)
  | .mod a b => .mod (a.rename f) (b.rename f)

namespace Expr

def Known (c : Context) (e : Expr) : Prop := ∀ x ∈ e.names, (c.fieldIndex? x).isSome

/-- The code of an expression. An unknown field gets the first position. -/
def place (c : Context) (e : Expr) : Code := e.rename fun x => (c.fieldIndex? x).getD 0

theorem known_append {c : Context} {a b e : Expr} (h : e.names = a.names ++ b.names) :
    Known c e ↔ Known c a ∧ Known c b := by
  simp [Known, h, or_imp, forall_and]

theorem resolve_of_known {c : Context} {e : Expr} (h : Known c e) :
    Expr.resolve e c = .ok (place c e) := by
  induction e with
  | field x =>
    obtain ⟨i, hi⟩ := Option.isSome_iff_exists.mp (h x (by simp [Term.names]))
    simp [Expr.resolve, Term.traverse, place, Term.rename, hi]
  | int n => rfl
  | bool b => rfl
  | not a ih =>
    have ha := ih h
    simp only [Expr.resolve, Term.traverse] at ha ⊢
    rw [ha]
    rfl
  | and a b iha ihb | or a b iha ihb | cmp op a b iha ihb | mod a b iha ihb =>
    obtain ⟨ha, hb⟩ := (known_append rfl).mp h
    have ha := iha ha
    have hb := ihb hb
    simp only [Expr.resolve, Term.traverse] at ha hb ⊢
    rw [ha, hb]
    rfl

theorem known_of_resolve {c : Context} {e : Expr} {k : Code} (h : Expr.resolve e c = .ok k) :
    Known c e := by
  induction e generalizing k with
  | field x =>
    intro y hy
    obtain rfl := List.mem_singleton.mp hy
    cases hi : c.fieldIndex? y with
    | some i => rfl
    | none => simp [Expr.resolve, Term.traverse, hi] at h
  | int n => simp [Known, Term.names]
  | bool b => simp [Known, Term.names]
  | not a ih =>
    obtain ⟨k, hk, -⟩ := bind_eq_ok.mp h
    exact ih hk
  | and a b iha ihb | or a b iha ihb | cmp op a b iha ihb | mod a b iha ihb =>
    obtain ⟨k, hk, h⟩ := bind_eq_ok.mp h
    obtain ⟨k', hk', -⟩ := bind_eq_ok.mp h
    exact (known_append rfl).mpr ⟨iha hk, ihb hk'⟩

theorem resolve_eq_ok {c : Context} {e : Expr} {k : Code} :
    Expr.resolve e c = .ok k ↔ Known c e ∧ k = place c e := by
  constructor
  · intro h
    have hk := known_of_resolve h
    rw [resolve_of_known hk] at h
    exact ⟨hk, (Except.ok.inj h).symm⟩
  · rintro ⟨h, rfl⟩
    exact resolve_of_known h

/-- The value of an integer expression on a record. -/
def value (c : Context) (r : List Int64) (e : Expr) : Except Fault (Option Int64) :=
  (place c e).evalInt r

def truth (c : Context) (r : List Int64) (e : Expr) : Except Fault Bool :=
  (place c e).evalBool r

end Expr

/-- A comparison of values that may be missing. -/
def CmpOp.holds (op : CmpOp) : Option Int64 → Option Int64 → Bool
  | some x, some y => op.apply x y
  | _, _ => false

namespace Expr

variable {c : Context} {r : List Int64} {a b : Expr} {op : CmpOp} {t : Bool} {v : Option Int64}

@[simp] theorem value_int (c : Context) (r : List Int64) (n : Int64) :
    value c r (.int n) = .ok (some n) := rfl

@[simp] theorem truth_bool (c : Context) (r : List Int64) (t : Bool) :
    truth c r (.bool t) = .ok t := rfl

theorem truth_and_eq : truth c r (.and a b) =
    (do if ← truth c r a then truth c r b else return false) := rfl

theorem truth_or_eq : truth c r (.or a b) =
    (do if ← truth c r a then return true else truth c r b) := rfl

theorem truth_not_eq : truth c r (.not a) = (do return !(← truth c r a)) := rfl

/-- Both sides of a comparison are evaluated, whether or not the first has a value. -/
theorem truth_cmp_eq : truth c r (.cmp op a b) =
    (do return op.holds (← value c r a) (← value c r b)) := by
  simp only [truth, place, Term.rename, Code.evalBool, value]
  rcases Code.evalInt r _ with f | x
  · rfl
  rcases Code.evalInt r _ with f | y
  · rfl
  cases x <;> cases y <;> rfl

/-- The divisor is not evaluated after a dividend without a value. -/
theorem value_mod_eq : value c r (.mod a b) =
    (do match ← value c r a with
      | none => return none
      | some x => return (← value c r b).bind (remainder? x)) := by
  simp only [value, place, Term.rename, Code.evalInt]
  rcases Code.evalInt r _ with f | _ | x
  · rfl
  · rfl
  rcases Code.evalInt r _ with f | _ | y <;> rfl

theorem truth_and : truth c r (.and a b) = .ok t ↔
    truth c r a = .ok false ∧ t = false ∨ truth c r a = .ok true ∧ truth c r b = .ok t := by
  rw [truth_and_eq]
  rcases truth c r a with f | _ | _ <;> simp [eq_comm]

theorem truth_or : truth c r (.or a b) = .ok t ↔
    truth c r a = .ok true ∧ t = true ∨ truth c r a = .ok false ∧ truth c r b = .ok t := by
  rw [truth_or_eq]
  rcases truth c r a with f | _ | _ <;> simp [eq_comm]

theorem truth_not : truth c r (.not a) = .ok t ↔ truth c r a = .ok !t := by
  rw [truth_not_eq]
  rcases truth c r a with f | _ | _ <;> cases t <;> simp

theorem truth_cmp : truth c r (.cmp op a b) = .ok t ↔
    ∃ x y, value c r a = .ok x ∧ value c r b = .ok y ∧ t = op.holds x y := by
  rw [truth_cmp_eq]
  rcases value c r a with f | x
  · simp
  rcases value c r b with f | y <;> simp [eq_comm]

theorem value_mod : value c r (.mod a b) = .ok v ↔
    value c r a = .ok none ∧ v = none ∨
      ∃ x y, value c r a = .ok (some x) ∧ value c r b = .ok y ∧ v = y.bind (remainder? x) := by
  rw [value_mod_eq]
  rcases value c r a with f | _ | x
  · simp
  · simp [eq_comm]
  rcases value c r b with f | y <;> simp [eq_comm]

end Expr

end GraphViews.Filter
