import GraphViews.Graph.Traversal
import Std.Data.HashSet
import Std.Data.TreeSet

/-! # Tests of what is in a set, and of what has something left -/

namespace GraphViews.Graph

class Collection (σ : Type) (α : outParam Type) where
  contains : σ → α → Bool

instance {α : Type} [BEq α] [Hashable α] : Collection (Std.HashSet α) α := ⟨fun s x => s.contains x⟩

instance {α : Type} [Ord α] : Collection (Std.TreeSet α) α := ⟨fun s x => s.contains x⟩

instance {α : Type} [BEq α] : Collection (Array α) α := ⟨fun s x => s.contains x⟩

instance {α : Type} [BEq α] : Collection (List α) α := ⟨fun s x => s.contains x⟩

namespace Test

variable {σ α β : Type}

def inside [Collection σ α] (s : σ) : Test α := .ofPred fun x => Collection.contains s x

def outside [Collection σ α] (s : σ) : Test α := .ofPred fun x => !Collection.contains s x

/-- Keeps what reads above `zero`. -/
def residual [LT β] [DecidableLT β] (zero : β) (read : α → Except Fault β) : Test α := fun x => do
  return decide (zero < (← read x))

end Test

end GraphViews.Graph
