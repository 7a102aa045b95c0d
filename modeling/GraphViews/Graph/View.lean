import GraphViews.Graph.Multigraph
import GraphViews.Graph.Traversal

/-!
# Views of a graph

A layer hides what its tests reject: a vertex by the vertex test; an edge of the whole list by the edge test
and at both ends; an edge at a vertex by the edge test and at its far end; the edge that is looked up by the
edge test alone. Counts and properties are those of the graph below.
-/

namespace GraphViews.Graph

structure Layer where
  edge : Test Edge
  vertex : Test Vertex

namespace Layer

def onOut (l : Layer) : Test Edge := l.edge.both (l.vertex.on Edge.target)

def onIn (l : Layer) : Test Edge := l.edge.both (l.vertex.on Edge.source)

def onEdge (l : Layer) : Test Edge :=
  l.edge.both ((l.vertex.on Edge.source).both (l.vertex.on Edge.target))

def on (l : Layer) : Direction → Test Edge
  | .outgoing => l.onOut
  | .incoming => l.onIn

def edgesOnly (p : Test Edge) : Layer := ⟨p, .always⟩

/-- Shows the part of a graph that its accepted vertices span. -/
def induced (p : Test Vertex) : Layer := ⟨.always, p⟩

end Layer

/-- A graph, a handle on a view, or a view under one more layer. -/
inductive View (V E : Type) where
  | whole (g : Multigraph V E)
  | handle (inner : View V E)
  | filtered (inner : View V E) (layer : Layer)

namespace View

variable {V E : Type}

def base : View V E → Multigraph V E
  | whole g => g
  | handle w => w.base
  | filtered w _ => w.base

def rebase (h : Multigraph V E) : View V E → View V E
  | whole _ => whole h
  | handle w => handle (w.rebase h)
  | filtered w l => filtered (w.rebase h) l

def isDirected : View V E → Bool
  | whole g => g.directed
  | handle w => w.isDirected
  | filtered w _ => w.isDirected

def allowsParallelEdges : View V E → Bool
  | whole _ => true
  | handle w => w.allowsParallelEdges
  | filtered w _ => w.allowsParallelEdges

/-- A descriptor carries its endpoints. -/
def source : View V E → Edge → Vertex
  | whole _, e => e.source
  | handle w, e => w.source e
  | filtered w _, e => w.source e

def target : View V E → Edge → Vertex
  | whole _, e => e.target
  | handle w, e => w.target e
  | filtered w _, e => w.target e

def numVertices : View V E → Nat
  | whole g => g.numVertices
  | handle w => w.numVertices
  | filtered w _ => w.numVertices

def numEdges : View V E → Nat
  | whole g => g.numEdges
  | handle w => w.numEdges
  | filtered w _ => w.numEdges

def vertices : View V E → Traversal Vertex
  | whole g => .ofList g.vertices
  | handle w => w.vertices
  | filtered w l => w.vertices.filter l.vertex

def edges : View V E → Traversal Edge
  | whole g => .ofList g.edges
  | handle w => w.edges
  | filtered w l => w.edges.filter l.onEdge

def incidence (v : Vertex) (d : Direction) : View V E → Except Fault (Traversal Edge)
  | whole g => do return .ofList (← g.incidence v d)
  | handle w => w.incidence v d
  | filtered w l => do return (← w.incidence v d).filter (l.on d)

def outEdges (w : View V E) (v : Vertex) : Except Fault (Traversal Edge) := w.incidence v .outgoing

def inEdges (w : View V E) (v : Vertex) : Except Fault (Traversal Edge) := w.incidence v .incoming

/-- A graph reads the length of its list, a view counts. -/
def degree (v : Vertex) (d : Direction) : View V E → Except Fault Nat
  | whole g => g.degree v d
  | handle w => w.degree v d
  | filtered w l => do (← (filtered w l).incidence v d).count

def outDegree (w : View V E) (v : Vertex) : Except Fault Nat := w.degree v .outgoing

def inDegree (w : View V E) (v : Vertex) : Except Fault Nat := w.degree v .incoming

def neighbors (w : View V E) (v : Vertex) : Except Fault (Traversal Vertex) := do
  return (← w.outEdges v).map w.target

/-- All edges from `u` to `v`. -/
def edgesBetween (w : View V E) (u v : Vertex) : Except Fault (Traversal Edge) := do
  return (← w.outEdges u).filter (.ofPred fun e => w.target e = v)

/-- The first edge from `u` to `v` in the graph, if all edge tests keep it. -/
def edge? (u v : Vertex) : View V E → Except Fault (Option Edge)
  | whole g => do return (← g.incidence u .outgoing).find? fun e => e.target = v
  | handle w => w.edge? u v
  | filtered w l => do
    match ← w.edge? u v with
    | some e => if ← l.edge e then return some e else return none
    | none => return none

def vertexProperty : View V E → Vertex → Except Fault V
  | whole g, v => g.vertexProperty v
  | handle w, v => w.vertexProperty v
  | filtered w _, v => w.vertexProperty v

def edgeProperty : View V E → Edge → Except Fault E
  | whole g, e => g.edgeProperty e
  | handle w, e => w.edgeProperty e
  | filtered w _, e => w.edgeProperty e

def edgeField {β : Type} (w : View V E) (f : E → β) (e : Edge) : Except Fault β := do
  return f (← w.edgeProperty e)

def vertexField {β : Type} (w : View V E) (f : V → β) (v : Vertex) : Except Fault β := do
  return f (← w.vertexProperty v)

/-- A change goes through to the graph below, whether or not the view shows the vertex. -/
def modifyVertex : View V E → Vertex → (V → V) → Except Fault (V × View V E)
  | whole g, v, f => (g.modifyVertex v f).map (Prod.map id whole)
  | handle w, v, f => (w.modifyVertex v f).map (Prod.map id handle)
  | filtered w l, v, f => (w.modifyVertex v f).map (Prod.map id (filtered · l))

def putVertex (w : View V E) (v : Vertex) (x : V) : Except Fault (V × View V E) :=
  w.modifyVertex v fun _ => x

def modifyEdge : View V E → Edge → (E → E) → Except Fault (E × View V E)
  | whole g, e, f => (g.modifyEdge e f).map (Prod.map id whole)
  | handle w, e, f => (w.modifyEdge e f).map (Prod.map id handle)
  | filtered w l, e, f => (w.modifyEdge e f).map (Prod.map id (filtered · l))

def putEdge (w : View V E) (e : Edge) (x : E) : Except Fault (E × View V E) :=
  w.modifyEdge e fun _ => x

end View

end GraphViews.Graph
