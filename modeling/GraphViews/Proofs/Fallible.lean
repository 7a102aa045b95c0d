/-! # Steps that may fail, one after the other -/

namespace GraphViews.Fallible

variable {ε α β : Type}

@[simp] theorem pure_eq_ok (a : α) : (pure a : Except ε α) = .ok a := rfl

@[simp] theorem ok_bind (a : α) (f : α → Except ε β) : (Except.ok a >>= f) = f a := rfl

@[simp] theorem error_bind (e : ε) (f : α → Except ε β) :
    (Except.error e >>= f) = .error e := rfl

@[simp] theorem mapError_ok {δ : Type} (f : ε → δ) (a : α) :
    (Except.ok a : Except ε α).mapError f = .ok a := rfl

@[simp] theorem mapError_error {δ : Type} (f : ε → δ) (e : ε) :
    (Except.error e : Except ε α).mapError f = .error (f e) := rfl

@[simp] theorem mapError_id (x : Except ε α) : x.mapError id = x := by
  cases x <;> rfl

theorem mapError_eq_ok {δ : Type} {f : ε → δ} {x : Except ε α} {a : α} :
    x.mapError f = .ok a ↔ x = .ok a := by
  cases x <;> simp

theorem mapError_eq_error {δ : Type} {f : ε → δ} {x : Except ε α} {d : δ} :
    x.mapError f = .error d ↔ ∃ e, x = .error e ∧ f e = d := by
  cases x <;> simp

theorem toOption_eq_some {x : Except ε α} {a : α} : x.toOption = some a ↔ x = .ok a := by
  cases x <;> simp [Except.toOption]

theorem exists_ok {x : Except ε α} (h : x.toOption.isSome = true) : ∃ a, x = .ok a := by
  obtain ⟨a, ha⟩ := Option.isSome_iff_exists.mp h
  exact ⟨a, toOption_eq_some.mp ha⟩

/-- Two steps succeed exactly when the first does and the second does after it. -/
theorem bind_eq_ok {x : Except ε α} {f : α → Except ε β} {b : β} :
    x >>= f = .ok b ↔ ∃ a, x = .ok a ∧ f a = .ok b := by
  cases x <;> simp

theorem bind_eq_error {x : Except ε α} {f : α → Except ε β} {e : ε} :
    x >>= f = .error e ↔ x = .error e ∨ ∃ a, x = .ok a ∧ f a = .error e := by
  cases x <;> simp

theorem mapM_eq_ok_map {f : α → Except ε β} {g : α → β} {xs : List α}
    (h : ∀ x ∈ xs, f x = .ok (g x)) : xs.mapM f = .ok (xs.map g) := by
  induction xs with
  | nil => rfl
  | cons x xs ih =>
    rw [List.mapM_cons, h x List.mem_cons_self, ok_bind,
      ih fun y hy => h y (List.mem_cons_of_mem x hy)]
    rfl

theorem mapM_cons_eq_ok {f : α → Except ε β} {x : α} {xs : List α} {zs : List β} :
    (x :: xs).mapM f = .ok zs ↔ ∃ y ys, f x = .ok y ∧ xs.mapM f = .ok ys ∧ zs = y :: ys := by
  rw [List.mapM_cons]
  cases f x with
  | error e => simp
  | ok y => cases xs.mapM f <;> simp [eq_comm]

theorem mapM_eq_ok_of_getElem {f : α → Except ε β} {xs : List α} {ys : List β}
    (hl : xs.length = ys.length)
    (h : ∀ i (hx : i < xs.length) (hy : i < ys.length), f xs[i] = .ok ys[i]) :
    xs.mapM f = .ok ys := by
  induction xs generalizing ys with
  | nil => rw [List.eq_nil_of_length_eq_zero hl.symm, List.mapM_nil, pure_eq_ok]
  | cons x xs ih =>
    cases ys with
    | nil => cases hl
    | cons y ys =>
      refine mapM_cons_eq_ok.mpr ⟨y, ys, h 0 (Nat.zero_lt_succ _) (Nat.zero_lt_succ _), ?_, rfl⟩
      refine ih (Nat.succ.inj hl) ?_
      intro i hx hy
      exact h (i + 1) (Nat.succ_lt_succ hx) (Nat.succ_lt_succ hy)

theorem length_of_mapM {f : α → Except ε β} {xs : List α} {ys : List β} (h : xs.mapM f = .ok ys) :
    ys.length = xs.length := by
  induction xs generalizing ys with
  | nil =>
    cases h
    rfl
  | cons x xs ih =>
    obtain ⟨y, zs, -, hzs, rfl⟩ := mapM_cons_eq_ok.mp h
    rw [List.length_cons, List.length_cons, ih hzs]

theorem mem_of_mapM {f : α → Except ε β} {xs : List α} {ys : List β} (h : xs.mapM f = .ok ys) {x : α}
    (hx : x ∈ xs) : ∃ y ∈ ys, f x = .ok y := by
  induction xs generalizing ys with
  | nil => cases hx
  | cons x' xs ih =>
    obtain ⟨y, ys, hy, hys, rfl⟩ := mapM_cons_eq_ok.mp h
    rcases List.mem_cons.mp hx with rfl | hx
    · exact ⟨y, List.mem_cons_self, hy⟩
    · obtain ⟨z, hz, hf⟩ := ih hys hx
      exact ⟨z, List.mem_cons_of_mem y hz, hf⟩

theorem exists_mem_of_mapM {f : α → Except ε β} {xs : List α} {ys : List β} (h : xs.mapM f = .ok ys)
    {y : β} (hy : y ∈ ys) : ∃ x ∈ xs, f x = .ok y := by
  induction xs generalizing ys with
  | nil =>
    cases h
    cases hy
  | cons x xs ih =>
    obtain ⟨z, zs, hz, hzs, rfl⟩ := mapM_cons_eq_ok.mp h
    rcases List.mem_cons.mp hy with rfl | hy
    · exact ⟨x, List.mem_cons_self, hz⟩
    · obtain ⟨x', hx', hf⟩ := ih hzs hy
      exact ⟨x', List.mem_cons_of_mem x hx', hf⟩

theorem exists_error_of_mapM {f : α → Except ε β} {xs : List α} {e : ε} (h : xs.mapM f = .error e) :
    ∃ x ∈ xs, f x = .error e := by
  induction xs with
  | nil => cases h
  | cons x xs ih =>
    rw [List.mapM_cons] at h
    rcases bind_eq_error.mp h with h | ⟨y, -, h⟩
    · exact ⟨x, List.mem_cons_self, h⟩
    · rcases bind_eq_error.mp h with h | ⟨ys, -, h⟩
      · obtain ⟨x', hx', hf⟩ := ih h
        exact ⟨x', List.mem_cons_of_mem x hx', hf⟩
      · cases h

/-- A step fails for a list exactly where it fails for one item and succeeds for all items before it. -/
theorem mapM_eq_error {f : α → Except ε β} {xs : List α} {e : ε} :
    xs.mapM f = .error e ↔ ∃ (i : Nat) (x : α), xs[i]? = some x ∧ f x = .error e ∧
      ∀ j < i, ∀ y, xs[j]? = some y → ∃ z, f y = .ok z := by
  induction xs with
  | nil => simp
  | cons x xs ih =>
    rw [List.mapM_cons]
    cases hx : f x with
    | error e' =>
      rw [error_bind]
      constructor
      · intro h
        cases h
        exact ⟨0, x, rfl, hx, nofun⟩
      · rintro ⟨i, y, hy, he, hbefore⟩
        cases i with
        | zero =>
          cases hy
          cases hx.symm.trans he
          rfl
        | succ i =>
          obtain ⟨z, hz⟩ := hbefore 0 (Nat.zero_lt_succ i) x rfl
          cases hx.symm.trans hz
    | ok z =>
      rw [ok_bind, bind_eq_error]
      constructor
      · rintro (h | ⟨ys, -, h⟩)
        · obtain ⟨i, y, hy, he, hbefore⟩ := ih.mp h
          refine ⟨i + 1, y, hy, he, ?_⟩
          intro j hj y' hy'
          cases j with
          | zero =>
            cases hy'
            exact ⟨z, hx⟩
          | succ j => exact hbefore j (Nat.lt_of_succ_lt_succ hj) y' hy'
        · cases h
      · rintro ⟨i, y, hy, he, hbefore⟩
        cases i with
        | zero =>
          cases hy
          cases hx.symm.trans he
        | succ i =>
          left
          refine ih.mpr ⟨i, y, hy, he, ?_⟩
          intro j hj y' hy'
          exact hbefore (j + 1) (Nat.succ_lt_succ hj) y' hy'

theorem map_bind {γ : Type} (x : Except ε α) (f : α → Except ε β) (g : β → γ) :
    (x >>= f).map g = x >>= fun a => (f a).map g := by
  cases x <;> rfl

theorem map_mapM {γ : Type} (f : α → Except ε β) (g : β → γ) (xs : List α) :
    (xs.mapM f).map (List.map g) = xs.mapM fun x => (f x).map g := by
  induction xs with
  | nil => rfl
  | cons x xs ih =>
    rw [List.mapM_cons, List.mapM_cons, ← ih]
    cases f x with
    | error e => rfl
    | ok y => cases xs.mapM f <;> rfl

theorem exists_mapM_sublist {f : α → Except ε β} {xs xs' : List α} {ys : List β}
    (h : xs.mapM f = .ok ys) (hs : xs'.Sublist xs) :
    ∃ ys', xs'.mapM f = .ok ys' ∧ ys'.Sublist ys := by
  induction hs generalizing ys with
  | slnil => exact ⟨ys, h, .refl ys⟩
  | cons x _ ih =>
    obtain ⟨y, ys, -, hys, rfl⟩ := mapM_cons_eq_ok.mp h
    obtain ⟨ys', hys', hsub⟩ := ih hys
    exact ⟨ys', hys', hsub.cons y⟩
  | cons_cons x _ ih =>
    obtain ⟨y, ys, hy, hys, rfl⟩ := mapM_cons_eq_ok.mp h
    obtain ⟨ys', hys', hsub⟩ := ih hys
    exact ⟨y :: ys', mapM_cons_eq_ok.mpr ⟨y, ys', hy, hys', rfl⟩, hsub.cons_cons y⟩

private theorem filterAuxM_eq_ok {f : α → Except ε Bool} {p : α → Bool} {xs : List α}
    (h : ∀ x ∈ xs, f x = .ok (p x)) (acc : List α) :
    xs.filterAuxM f acc = .ok ((xs.filter p).reverse ++ acc) := by
  induction xs generalizing acc with
  | nil => rfl
  | cons x xs ih =>
    have hxs := ih fun y hy => h y (List.mem_cons_of_mem x hy)
    rw [List.filterAuxM, h x List.mem_cons_self, ok_bind]
    cases hp : p x with
    | true => simp [hxs, hp]
    | false => simp [hxs, hp]

theorem filterM_eq_ok_filter {f : α → Except ε Bool} {p : α → Bool} {xs : List α}
    (h : ∀ x ∈ xs, f x = .ok (p x)) : xs.filterM f = .ok (xs.filter p) := by
  rw [List.filterM, filterAuxM_eq_ok h, ok_bind, List.append_nil, List.reverse_reverse]
  rfl

/-- What holds at first and is kept by every step that succeeds holds of all that was read. -/
theorem foldlM_induction {P : β → List α → Prop} {f : β → α → Except ε β} {s t : β} {xs : List α}
    (hs : P s []) (hstep : ∀ s ys x s', P s ys → f s x = .ok s' → P s' (ys ++ [x]))
    (h : xs.foldlM f s = .ok t) : P t xs := by
  suffices hall : ∀ xs ys s, P s ys → xs.foldlM f s = .ok t → P t (ys ++ xs) from hall xs [] s hs h
  intro xs
  induction xs with
  | nil =>
    intro ys s hs h
    cases h
    rwa [List.append_nil]
  | cons x xs ih =>
    intro ys s hs h
    obtain ⟨s', hx, h⟩ := bind_eq_ok.mp h
    have h := ih (ys ++ [x]) s' (hstep s ys x s' hs hx) h
    rwa [List.append_assoc] at h

theorem foldlM_eq_error {f : β → α → Except ε β} {s : β} {xs : List α} {e : ε} :
    xs.foldlM f s = .error e ↔ ∃ before x after t, xs = before ++ x :: after ∧
      before.foldlM f s = .ok t ∧ f t x = .error e := by
  constructor
  · intro h
    induction xs generalizing s with
    | nil => cases h
    | cons x xs ih =>
      rw [List.foldlM_cons] at h
      cases hx : f s x with
      | error e' =>
        rw [hx, error_bind] at h
        cases h
        exact ⟨[], x, xs, s, rfl, rfl, hx⟩
      | ok s' =>
        rw [hx, ok_bind] at h
        obtain ⟨before, y, after, t, rfl, ht, hy⟩ := ih h
        refine ⟨x :: before, y, after, t, rfl, ?_, hy⟩
        rw [List.foldlM_cons, hx, ok_bind, ht]
  · rintro ⟨before, x, after, t, rfl, ht, hx⟩
    rw [List.foldlM_append, ht, ok_bind, List.foldlM_cons, hx, error_bind]

end GraphViews.Fallible
