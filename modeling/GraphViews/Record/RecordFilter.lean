import GraphViews.Filter.Constraint
import GraphViews.Record.Basic

/-! # Constraints as tests of the vertices and edges of a data graph -/

namespace GraphViews.Record

open GraphViews.Filter GraphViews.Graph

structure VertexFilter where
  graph : DataGraph
  constraint : Constraint
  context_eq : constraint.context = .vertex

structure EdgeFilter where
  graph : DataGraph
  constraint : Constraint
  context_eq : constraint.context = .edge

namespace VertexFilter

def on (g : DataGraph) (k : Constraint) : Except Fault VertexFilter :=
  if h : k.context = .vertex then .ok ⟨g, k, h⟩ else .error .edgeExprOnVertices

def test (f : VertexFilter) : Test Vertex := fun v => do
  f.constraint.test (← f.graph.vertexProperty v).values

def shown (f : VertexFilter) : String := s!"VertexFilter({f.constraint.expr.shown})"

end VertexFilter

namespace EdgeFilter

def on (g : DataGraph) (k : Constraint) : Except Fault EdgeFilter :=
  if h : k.context = .edge then .ok ⟨g, k, h⟩ else .error .vertexExprOnEdges

/-- An undirected edge is seen from the side that it is reached from. -/
def test (f : EdgeFilter) : Test Edge := fun e => do
  f.constraint.test (← edgeRow (.whole f.graph) e).values

def shown (f : EdgeFilter) : String := s!"EdgeFilter({f.constraint.expr.shown})"

end EdgeFilter

end GraphViews.Record
