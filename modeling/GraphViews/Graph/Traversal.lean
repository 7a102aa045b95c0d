import GraphViews.Fault

/-!
# Traversals from both ends

What a traversal has not yet passed is a list of candidates, and each of them is yielded or dropped, as its
verdict says, only when it is reached.
-/

namespace GraphViews.Graph

/-- Whether something is kept, unless a contract is broken in finding out. -/
abbrev Test (α : Type) := α → Except Fault Bool

namespace Test

variable {α β : Type}

def always : Test α := fun _ => .ok true

def ofPred (p : α → Bool) : Test α := fun x => .ok (p x)

/-- The second test is made only of what passes the first. -/
def both (p q : Test α) : Test α := fun x => do
  if ← p x then q x else return false

def on (p : Test β) (f : α → β) : Test α := fun x => p (f x)

end Test

structure Candidate (α : Type) where
  item : α
  verdict : Except Fault Bool

/-- A traversal is exact if all its candidates are known to be kept. -/
structure Traversal (α : Type) where
  pending : List (Candidate α)
  exact : Bool

namespace Candidate

variable {α β : Type}

def kept (x : α) : Candidate α := ⟨x, .ok true⟩

def map (f : α → β) (c : Candidate α) : Candidate β := ⟨f c.item, c.verdict⟩

def filter (p : Test α) (c : Candidate α) : Candidate α :=
  ⟨c.item, do if ← c.verdict then p c.item else return false⟩

/-- The first candidate that is kept, and those after it. -/
def firstKept : List (Candidate α) → Except Fault (Option (α × List (Candidate α)))
  | [] => .ok none
  | c :: rest => do
    if ← c.verdict then return some (c.item, rest) else firstKept rest

def allKept : List (Candidate α) → Except Fault (List α)
  | [] => .ok []
  | c :: rest => do
    if ← c.verdict then return c.item :: (← allKept rest) else allKept rest

end Candidate

namespace Traversal

variable {α β : Type}

def ofList (xs : List α) : Traversal α := ⟨xs.map .kept, true⟩

def filter (p : Test α) (t : Traversal α) : Traversal α := ⟨t.pending.map (.filter p), false⟩

def map (f : α → β) (t : Traversal α) : Traversal β := ⟨t.pending.map (.map f), t.exact⟩

def popFront (t : Traversal α) : Except Fault (Option α × Traversal α) := do
  match ← Candidate.firstKept t.pending with
  | some (x, rest) => return (some x, { t with pending := rest })
  | none => return (none, { t with pending := [] })

def popBack (t : Traversal α) : Except Fault (Option α × Traversal α) := do
  match ← Candidate.firstKept t.pending.reverse with
  | some (x, rest) => return (some x, { t with pending := rest.reverse })
  | none => return (none, { t with pending := [] })

/-- What is left after `n` steps from the front. -/
def advance (t : Traversal α) : Nat → Except Fault (Traversal α)
  | 0 => .ok t
  | n + 1 => do (← t.popFront).2.advance n

def toList (t : Traversal α) : Except Fault (List α) := Candidate.allKept t.pending

def count (t : Traversal α) : Except Fault Nat := do return (← t.toList).length

/-- Bounds for the number of items to come. -/
def bounds (t : Traversal α) : Nat × Nat :=
  (if t.exact then t.pending.length else 0, t.pending.length)

end Traversal

end GraphViews.Graph
