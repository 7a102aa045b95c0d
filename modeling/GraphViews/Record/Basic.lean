import GraphViews.Graph.View

/-! # Records of vertices and edges -/

namespace GraphViews.Record

structure VertexRow where
  vid : Int64
  vlabel : Int64
  deriving DecidableEq

structure EdgeData where
  elabel : Int64
  capacity : Int64
  deriving DecidableEq

/-- An edge between the vertices with the given ids. -/
structure EdgeRow where
  src : Int64
  dst : Int64
  elabel : Int64
  capacity : Int64
  deriving DecidableEq

namespace VertexRow

/-- In the order of the fields that a filter can name. -/
def values (r : VertexRow) : List Int64 := [r.vid, r.vlabel]

def text (r : VertexRow) : String := s!"{r.vid} ({r.vlabel})"

instance : Ord VertexRow := ⟨fun r s => compare r.values s.values⟩

end VertexRow

def EdgeData.text (d : EdgeData) : String := s!"{d.elabel} [{d.capacity}]"

namespace EdgeRow

def values (r : EdgeRow) : List Int64 := [r.src, r.dst, r.elabel, r.capacity]

def data (r : EdgeRow) : EdgeData := ⟨r.elabel, r.capacity⟩

instance : Ord EdgeRow := ⟨fun r s => compare r.values s.values⟩

end EdgeRow

abbrev DataGraph := Graph.Multigraph VertexRow EdgeData

abbrev DataView := Graph.View VertexRow EdgeData

/-- The record of an edge, from the side that it is reached from. -/
def edgeRow (w : DataView) (e : Graph.Edge) : Except Fault EdgeRow := do
  let d ← w.edgeProperty e
  let s ← w.vertexProperty (w.source e)
  let t ← w.vertexProperty (w.target e)
  return ⟨s.vid, t.vid, d.elabel, d.capacity⟩

end GraphViews.Record
