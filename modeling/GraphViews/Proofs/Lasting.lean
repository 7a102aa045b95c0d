/-! # Steps on a state that outlasts their failure -/

namespace GraphViews

/-- Steps on a state that lies in one place. A step that fails takes back nothing of what the steps before it did. -/
abbrev Lasting (ε σ α : Type) := ExceptT ε (StateM σ) α

namespace Lasting

variable {ε σ α β : Type}

/-- What comes of the steps from the state `s`, and the state that they leave. -/
def on (x : Lasting ε σ α) (s : σ) : Except ε α × σ := x.run.run s

def ask (q : σ → Except ε α) : Lasting ε σ α := do
  match q (← get) with
  | .ok a => return a
  | .error e => throw e

def change (t : σ → σ) : Lasting ε σ Unit := modify t

@[simp] theorem on_change (t : σ → σ) (s : σ) : (change t : Lasting ε σ Unit).on s = (.ok (), t s) := rfl

/-- A step is made only after one that has not failed. -/
@[simp] theorem on_bind (x : Lasting ε σ α) (k : α → Lasting ε σ β) (s : σ) :
    (x >>= k).on s = match x.on s with
      | (.ok a, t) => (k a).on t
      | (.error e, t) => (.error e, t) := by
  change (ExceptT.bindCont k (x.on s).1).run (x.on s).2 = _
  rcases x.on s with ⟨_ | _, t⟩ <;> rfl

@[simp] theorem on_map (k : α → β) (x : Lasting ε σ α) (s : σ) :
    (k <$> x).on s = ((x.on s).1.map k, (x.on s).2) := by
  rw [map_eq_pure_bind, on_bind]
  rcases x.on s with ⟨_ | _, t⟩ <;> rfl

@[simp] theorem on_ask (q : σ → Except ε α) (s : σ) : (ask q).on s = (q s, s) := by
  change (match q s with | .ok a => (pure a : Lasting ε σ α) | .error e => throw e).on s = _
  cases q s <;> rfl

/-- Steps that went through, or that failed and left the state as it was. -/
def settled (s : σ) : Except ε (α × σ) → Except ε α × σ
  | .ok (a, t) => (.ok a, t)
  | .error e => (.error e, s)

@[simp] theorem settled_ok (s t : σ) (a : α) : settled s (Except.ok (a, t) : Except ε (α × σ)) = (.ok a, t) := rfl

@[simp] theorem settled_error (s : σ) (e : ε) : settled s (Except.error e : Except ε (α × σ)) = (.error e, s) := rfl

end Lasting

end GraphViews
