import GraphViews.Fault
import GraphViews.Graph.Descriptor
import Std.Data.HashMap
import Std.Data.TreeMap

/-!
# Values that are kept apart from a graph

They are hashed, ordered, or stored by position. The first two read a default where nothing was put; the last
has a value at every position below its size.
-/

namespace GraphViews.Graph

class PropertyMap (μ : Type) (κ β : outParam Type) where
  get : μ → κ → Except Fault β
  put : μ → κ → β → Except Fault μ
  size : μ → Nat

section Keyed

variable {κ β : Type} [Inhabited β]

instance [BEq κ] [Hashable κ] : PropertyMap (Std.HashMap κ β) κ β where
  get m k := .ok (m.getD k default)
  put m k x := .ok (m.insert k x)
  size m := m.size

instance [Ord κ] : PropertyMap (Std.TreeMap κ β) κ β where
  get m k := .ok (m.getD k default)
  put m k x := .ok (m.insert k x)
  size m := m.size

end Keyed

/-- Values for the positions below a size that is fixed once. -/
structure IndexMap (κ β : Type) where
  values : Array β

namespace IndexMap

variable {κ β : Type}

def replicate (size : Nat) (fill : β) : IndexMap κ β := ⟨Array.replicate size fill⟩

def isEmpty (m : IndexMap κ β) : Bool := m.values.isEmpty

variable [Indexed κ]

def get (m : IndexMap κ β) (k : κ) : Except Fault β :=
  match m.values[Indexed.index k]? with
  | some x => .ok x
  | none => .error (.outOfBounds m.values.size (Indexed.index k))

def put (m : IndexMap κ β) (k : κ) (x : β) : Except Fault (IndexMap κ β) :=
  if Indexed.index k < m.values.size then .ok ⟨m.values.setIfInBounds (Indexed.index k) x⟩
  else .error (.outOfBounds m.values.size (Indexed.index k))

instance : PropertyMap (IndexMap κ β) κ β where
  get := get
  put := put
  size m := m.values.size

end IndexMap

end GraphViews.Graph
