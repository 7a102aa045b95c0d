import GraphViews.Record.Basic

/-! # The visible part of a view: its records and their number -/

namespace GraphViews.Record

structure Snapshot where
  vertices : List VertexRow
  edges : List EdgeRow
  deriving DecidableEq

/-- What is seen next to what the graph below holds. -/
structure Summary where
  numVertices : Nat
  numEdges : Nat
  visibleVertices : Nat
  visibleEdges : Nat
  deriving DecidableEq

namespace Snapshot

/-- The records that a view yields, in the order of traversal. -/
def ofView (w : DataView) : Except Fault Snapshot := do
  let vertices ← (← w.vertices.toList).mapM w.vertexProperty
  let edges ← (← w.edges.toList).mapM (edgeRow w)
  return ⟨vertices, edges⟩

instance : Ord Snapshot :=
  ⟨fun a b => (compare a.vertices b.vertices).then (compare a.edges b.edges)⟩

end Snapshot

namespace Summary

def ofView (w : DataView) : Except Fault Summary := do
  return ⟨w.numVertices, w.numEdges, ← w.vertices.count, ← w.edges.count⟩

def text (s : Summary) : String :=
  s!"{s.visibleVertices}/{s.numVertices} vertices, {s.visibleEdges}/{s.numEdges} edges"

end Summary

end GraphViews.Record
