import GraphViews.Graph.Traversal
import GraphViews.Proofs.Fallible

/-!
# Traversals with known verdicts

Where every test has an answer, what a traversal yields is an ordinary filter of its candidates.
-/

namespace GraphViews.Graph

variable {α β : Type}

namespace Test

@[simp]
theorem both_ofPred (p q : α → Bool) : both (ofPred p) (ofPred q) = ofPred fun x => p x && q x := by
  funext x
  cases hp : p x <;> simp [both, ofPred, hp]

@[simp]
theorem on_ofPred (p : β → Bool) (f : α → β) : on (ofPred p) f = ofPred fun x => p (f x) := rfl

theorem both_ok {p q : Test α} {x : α} {a b : Bool} (hp : p x = .ok a) (hq : q x = .ok b) :
    p.both q x = .ok (a && b) := by
  cases a <;> simp [both, hp, hq]

theorem both_eq_true {p q : Test α} {x : α} :
    p.both q x = .ok true ↔ p x = .ok true ∧ q x = .ok true := by
  rcases hp : p x with f | b
  · simp [both, hp]
  · cases b <;> simp [both, hp]

end Test

namespace Candidate

private theorem filter_ofPred (p : α → Bool) (x : α) (b : Bool) :
    Candidate.filter (.ofPred p) ⟨x, .ok b⟩ = ⟨x, .ok (b && p x)⟩ := by
  cases b <;> simp [filter, Test.ofPred]

theorem allKept_map {f : α → Candidate β} {p : α → Bool} {i : α → β} {xs : List α}
    (h : ∀ x ∈ xs, f x = ⟨i x, .ok (p x)⟩) : allKept (xs.map f) = .ok ((xs.filter p).map i) := by
  induction xs with
  | nil => rfl
  | cons x xs ih =>
    have hx := h x List.mem_cons_self
    have hxs := ih fun y hy => h y (List.mem_cons_of_mem x hy)
    cases hp : p x <;> simp [allKept, hx, hxs, hp]

theorem filter_kept (p : Test α) (x : α) : Candidate.filter p (.kept x) = ⟨x, p x⟩ := rfl

/-- Where the verdicts go by what the candidates read as, those that are kept read as what is kept of it. -/
theorem exists_allKept {f : α → Except Fault β} {c : α → Candidate α} {p : β → Bool} {xs : List α}
    {ys : List β} (hf : xs.mapM f = .ok ys)
    (hc : ∀ x ∈ xs, ∀ y, f x = .ok y → c x = ⟨x, .ok (p y)⟩) :
    ∃ zs, allKept (xs.map c) = .ok zs ∧ zs.mapM f = .ok (ys.filter p) := by
  induction xs generalizing ys with
  | nil =>
    cases hf
    exact ⟨[], rfl, rfl⟩
  | cons x xs ih =>
    obtain ⟨y, ys, hy, hys, rfl⟩ := Fallible.mapM_cons_eq_ok.mp hf
    obtain ⟨zs, hzs, hm⟩ := ih hys fun x' hx' => hc x' (List.mem_cons_of_mem x hx')
    have hx := hc x List.mem_cons_self y hy
    cases hp : p y with
    | true =>
      refine ⟨x :: zs, ?_, ?_⟩
      · simp [allKept, hx, hp, hzs]
      · rw [List.filter_cons_of_pos hp]
        exact Fallible.mapM_cons_eq_ok.mpr ⟨y, _, hy, hm, rfl⟩
    | false =>
      refine ⟨zs, ?_, ?_⟩
      · simp [allKept, hx, hp, hzs]
      · rwa [List.filter_cons_of_neg (by simp [hp])]

/-- Of what was kept, a further test leaves what it keeps. -/
theorem allKept_filter {p : Test α} {cs : List (Candidate α)} {ys : List α}
    (h : allKept (cs.map (filter p)) = .ok ys) :
    ∃ xs, allKept cs = .ok xs ∧ ys.Sublist xs ∧ ∀ x, x ∈ ys ↔ x ∈ xs ∧ p x = .ok true := by
  induction cs generalizing ys with
  | nil =>
    cases h
    exact ⟨[], rfl, .refl [], by simp⟩
  | cons c cs ih =>
    rw [List.map_cons, allKept] at h
    obtain ⟨kept, hk, h⟩ := Fallible.bind_eq_ok.mp h
    obtain ⟨passed, hv, hk⟩ := Fallible.bind_eq_ok.mp hk
    cases passed with
    | false =>
      cases hk
      obtain ⟨xs, hxs, hsub, hmem⟩ := ih h
      refine ⟨xs, ?_, hsub, hmem⟩
      simp [allKept, hv, hxs]
    | true =>
      replace hk : p c.item = .ok kept := hk
      cases kept with
      | false =>
        obtain ⟨xs, hxs, hsub, hmem⟩ := ih h
        refine ⟨c.item :: xs, ?_, hsub.cons c.item, ?_⟩
        · simp [allKept, hv, hxs]
        · intro x
          rw [hmem, List.mem_cons]
          constructor
          · rintro ⟨hx, hp⟩
            exact ⟨.inr hx, hp⟩
          · rintro ⟨rfl | hx, hp⟩
            · rw [hk] at hp
              cases hp
            · exact ⟨hx, hp⟩
      | true =>
        obtain ⟨zs, hzs, h⟩ := Fallible.bind_eq_ok.mp h
        cases h
        obtain ⟨xs, hxs, hsub, hmem⟩ := ih hzs
        refine ⟨c.item :: xs, ?_, hsub.cons_cons c.item, ?_⟩
        · simp [allKept, hv, hxs]
        · intro x
          rw [List.mem_cons, List.mem_cons, hmem]
          constructor
          · rintro (rfl | ⟨hx, hp⟩)
            · exact ⟨.inl rfl, hk⟩
            · exact ⟨.inr hx, hp⟩
          · rintro ⟨rfl | hx, hp⟩
            · exact .inl rfl
            · exact .inr ⟨hx, hp⟩

end Candidate

namespace Traversal

theorem toList_of_pending {t : Traversal β} {xs : List α} {p : α → Bool} {i : α → β}
    (h : t.pending = xs.map fun x => ⟨i x, .ok (p x)⟩) : t.toList = .ok ((xs.filter p).map i) := by
  rw [toList, h]
  exact Candidate.allKept_map fun _ _ => rfl

theorem count_of_toList {t : Traversal α} {xs : List α} (h : t.toList = .ok xs) :
    t.count = .ok xs.length := by
  rw [count, h]
  rfl

theorem pending_filter {t : Traversal β} {xs : List α} {p : α → Bool} {i : α → β} {q : β → Bool}
    (h : t.pending = xs.map fun x => ⟨i x, .ok (p x)⟩) :
    (t.filter (.ofPred q)).pending = xs.map fun x => ⟨i x, .ok (p x && q (i x))⟩ := by
  simp [filter, h, Candidate.filter_ofPred]

theorem pending_map {γ : Type} {t : Traversal β} {xs : List α} {p : α → Bool} {i : α → β}
    {f : β → γ} (h : t.pending = xs.map fun x => ⟨i x, .ok (p x)⟩) :
    (t.map f).pending = xs.map fun x => ⟨f (i x), .ok (p x)⟩ := by
  simp [map, h, Candidate.map]

theorem pending_ofList (xs : List α) :
    (ofList xs).pending = xs.map fun x => ⟨x, .ok true⟩ := rfl

@[simp]
theorem toList_ofList (xs : List α) : (ofList xs).toList = .ok xs := by
  rw [toList_of_pending (pending_ofList xs), List.map_id', List.filter_eq_self.mpr fun _ _ => rfl]

theorem pending_filter_congr {x y : Except Fault (Traversal α)}
    (h : x.map pending = y.map pending) (p : Test α) :
    (x >>= fun t => return t.filter p).map pending = (y >>= fun t => return t.filter p).map pending := by
  cases x <;> cases y <;> simp_all [Except.map, filter]

theorem pending_map_congr {x y : Except Fault (Traversal α)}
    (h : x.map pending = y.map pending) (f : α → β) :
    (x >>= fun t => return t.map f).map pending = (y >>= fun t => return t.map f).map pending := by
  cases x <;> cases y <;> simp_all [Except.map, map]

end Traversal

end GraphViews.Graph
