import GraphViews.Filter.Typing
import GraphViews.Proofs.Fallible

/-!
# What an ill-typed expression is blamed on

Every term of an expression stands at a place that demands a kind of it. The check goes over the places from the left,
the parts of a term before the term itself, and stops at the first term that does not fit.
-/

namespace GraphViews.Filter

open Fallible

def Expr.kind : Expr → Kind
  | .field _ | .int _ | .mod _ _ => .integer
  | .bool _ | .and _ _ | .or _ _ | .not _ | .cmp _ _ _ => .boolean

/-- A term and the kind that is demanded where it stands. -/
structure Place where
  term : Expr
  wanted : Kind

/-- The places below a term, from the left, each of them after those below it. -/
def placesBelow : Expr → List Place
  | .field _ | .int _ | .bool _ => []
  | .not a => placesBelow a ++ [⟨a, .boolean⟩]
  | .and a b | .or a b => placesBelow a ++ [⟨a, .boolean⟩] ++ (placesBelow b ++ [⟨b, .boolean⟩])
  | .cmp _ a b | .mod a b => placesBelow a ++ [⟨a, .integer⟩] ++ (placesBelow b ++ [⟨b, .integer⟩])

/-- The places of an expression, which has to be a truth value as a whole. -/
def places (e : Expr) : List Place := placesBelow e ++ [⟨e, .boolean⟩]

def Expr.unknown? (c : Context) : Expr → Option String
  | .field x => if x ∈ c.fields then none else some x
  | _ => none

namespace Place

/-- The term is an unknown field, or of another kind than its place demands. -/
def Bad (c : Context) (p : Place) : Prop := (p.term.unknown? c).isSome ∨ p.term.kind ≠ p.wanted

instance (c : Context) (p : Place) : Decidable (p.Bad c) := inferInstanceAs (Decidable (_ ∨ _))

/-- What is reported about a term that does not fit. -/
def blame (c : Context) (p : Place) : FilterError :=
  match p.term.unknown? c with
  | some x => .unknownField c x
  | none => .illTyped p.term

def examine (c : Context) (p : Place) : Except FilterError Unit :=
  if p.Bad c then .error (p.blame c) else .ok ()

end Place

/-- Examines one place after the other, up to the first that is bad. -/
def walk (c : Context) (ps : List Place) : Except FilterError Unit := ps.foldlM (fun _ p => p.examine c) ()

variable {c : Context} {ps qs : List Place} {e : Expr}

theorem walk_append : walk c (ps ++ qs) = walk c ps >>= fun _ => walk c qs := List.foldlM_append

private theorem walk_singleton (p : Place) : walk c [p] = p.examine c := by
  rw [walk, List.foldlM_cons]
  cases p.examine c <;> rfl

theorem walk_eq_ok : walk c ps = .ok () ↔ ∀ p ∈ ps, ¬p.Bad c := by
  induction ps with
  | nil => simp [walk]
  | cons p ps ih =>
    have hcons : walk c (p :: ps) = p.examine c >>= fun _ => walk c ps := rfl
    rw [hcons, bind_eq_ok, List.forall_mem_cons, ← ih]
    simp [Place.examine]

/-- A walk fails for the first place that is bad. -/
theorem walk_eq_error {err : FilterError} :
    walk c ps = .error err ↔ ∃ before p after, ps = before ++ p :: after ∧
      (∀ q ∈ before, ¬q.Bad c) ∧ p.Bad c ∧ err = p.blame c := by
  have hexamine (p : Place) : p.examine c = .error err ↔ p.Bad c ∧ err = p.blame c := by
    by_cases hp : p.Bad c <;> simp [Place.examine, hp, eq_comm]
  rw [walk, foldlM_eq_error]
  constructor
  · rintro ⟨before, p, after, u, rfl, hbefore, hp⟩
    exact ⟨before, p, after, rfl, walk_eq_ok.mp hbefore, (hexamine p).mp hp⟩
  · rintro ⟨before, p, after, rfl, hbefore, hp⟩
    exact ⟨before, p, after, (), rfl, walk_eq_ok.mpr hbefore, (hexamine p).mpr hp⟩

private theorem demand_walk (he : e.unknown? c = none) (ps : List Place) (k : Kind) :
    demand k e (walk c ps >>= fun _ => .ok e.kind) = walk c (ps ++ [⟨e, k⟩]) := by
  rw [walk_append]
  cases walk c ps with
  | error err => rfl
  | ok u =>
    rw [ok_bind, ok_bind, walk_singleton]
    by_cases hk : e.kind = k <;> simp [demand, Place.examine, Place.Bad, Place.blame, he, hk]

private theorem demand_operands (he : e.unknown? c = none) (k : Kind) :
    demand k e (walk c ps >>= fun _ => walk c qs >>= fun _ => .ok e.kind) = walk c (ps ++ qs ++ [⟨e, k⟩]) := by
  rw [← demand_walk he _ k, walk_append, bind_assoc]

private theorem demand_field (c : Context) (x : String) (k : Kind) :
    demand k (.field x) (kindOf c (.field x)) = walk c [⟨.field x, k⟩] := by
  rw [walk_singleton]
  have hx : (c.fieldIndex? x).isSome ↔ x ∈ c.fields := by simp [Context.fieldIndex?]
  by_cases h : x ∈ c.fields
  · by_cases hk : Kind.integer = k <;>
      simp [kindOf, demand, Place.examine, Place.Bad, Place.blame, Expr.unknown?, Expr.kind, hx, h, hk]
  · simp [kindOf, demand, Place.examine, Place.Bad, Place.blame, Expr.unknown?, hx, h]

/-- What is found about a term where a kind of it is demanded is what a walk over its places finds. -/
theorem demand_kindOf (c : Context) (e : Expr) (k : Kind) :
    demand k e (kindOf c e) = walk c (placesBelow e ++ [⟨e, k⟩]) := by
  induction e generalizing k with
  | field x => exact demand_field c x k
  | int n => exact demand_walk rfl [] k
  | bool b => exact demand_walk rfl [] k
  | not a ih =>
    rw [kindOf, ih]
    exact demand_walk rfl _ k
  | and a b iha ihb =>
    rw [kindOf, iha, ihb]
    exact demand_operands rfl k
  | or a b iha ihb =>
    rw [kindOf, iha, ihb]
    exact demand_operands rfl k
  | cmp op a b iha ihb =>
    rw [kindOf, iha, ihb]
    exact demand_operands rfl k
  | mod a b iha ihb =>
    rw [kindOf, iha, ihb]
    exact demand_operands rfl k

/-- The check succeeds exactly if no term of the expression is an unknown field or of another kind than is demanded
where it stands. Otherwise it is about the first one that is, from the left and after the parts of it. -/
theorem check_blames_first (e : Expr) (c : Context) :
    (check e c = .ok () ↔ ∀ p ∈ places e, ¬p.Bad c) ∧
    ∀ err, check e c = .error err ↔ ∃ before p after, places e = before ++ p :: after ∧
      (∀ q ∈ before, ¬q.Bad c) ∧ p.Bad c ∧ err = p.blame c := by
  have hwalk : check e c = walk c (places e) := demand_kindOf c e .boolean
  rw [hwalk]
  exact ⟨walk_eq_ok, fun err => walk_eq_error⟩

/-- Of three faults in `vid % true == capacity && vlabel` the innermost one on the left is reported. -/
example : check (.and (.cmp .eq (.mod (.field "vid") (.bool true)) (.field "capacity")) (.field "vlabel")) .vertex =
    .error (.illTyped (.bool true)) := rfl

end GraphViews.Filter
