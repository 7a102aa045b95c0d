/-!
# Descriptors of vertices and edges

A descriptor is a position in the order of insertion; that of an edge also says from which side it was
reached, which does not count when edges are compared.
-/

namespace GraphViews.Graph

structure Vertex where
  index : Nat
  deriving DecidableEq, Hashable

structure Edge where
  index : Nat
  source : Vertex
  target : Vertex
  deriving DecidableEq

namespace Vertex

def text (v : Vertex) : String := toString v.index

def shown (v : Vertex) : String := s!"VertexId({v.index})"

end Vertex

namespace Edge

def reversed (e : Edge) : Edge := ⟨e.index, e.target, e.source⟩

def text (e : Edge) : String := s!"{e.source.text}->{e.target.text}"

def shown (e : Edge) : String :=
  let fields := s!"index: {e.index}, source: {e.source.shown}, target: {e.target.shown}"
  "EdgeId \x7b " ++ fields ++ " \x7d"

end Edge

instance : Ord Vertex := ⟨fun u v => compare u.index v.index⟩

instance : BEq Edge := ⟨fun e f => e.index == f.index⟩

instance : Hashable Edge := ⟨fun e => hash e.index⟩

instance : Ord Edge := ⟨fun e f => compare e.index f.index⟩

theorem Edge.beq_iff {e f : Edge} : (e == f) = true ↔ e.index = f.index := by
  change (e.index == f.index) = true ↔ e.index = f.index
  exact beq_iff_eq

instance : EquivBEq Edge where
  rfl := Edge.beq_iff.2 rfl
  symm h := Edge.beq_iff.2 (Edge.beq_iff.1 h).symm
  trans h k := Edge.beq_iff.2 ((Edge.beq_iff.1 h).trans (Edge.beq_iff.1 k))

instance : LawfulHashable Edge where
  hash_eq _ _ h := congrArg (fun i : Nat => hash i) (Edge.beq_iff.1 h)

instance : Std.TransOrd Vertex where
  eq_swap {u v} := Std.OrientedOrd.eq_swap (a := u.index) (b := v.index)
  isLE_trans {u v w} := Std.TransOrd.isLE_trans (a := u.index) (b := v.index) (c := w.index)

instance : Std.LawfulEqOrd Vertex where
  compare_self := Std.ReflOrd.compare_self
  eq_of_compare {u v} h := by
    cases u
    cases v
    exact congrArg Vertex.mk (Std.LawfulEqOrd.eq_of_compare h)

instance : Std.TransOrd Edge where
  eq_swap {e f} := Std.OrientedOrd.eq_swap (a := e.index) (b := f.index)
  isLE_trans {e f g} := Std.TransOrd.isLE_trans (a := e.index) (b := f.index) (c := g.index)

/-- What has a position by which it can be stored. -/
class Indexed (κ : Type) where
  index : κ → Nat

instance : Indexed Vertex := ⟨Vertex.index⟩

instance : Indexed Edge := ⟨Edge.index⟩

end GraphViews.Graph
