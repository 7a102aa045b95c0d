import GraphViews.Fault
import GraphViews.Graph.Descriptor

/-!
# Multigraphs with a property at every vertex and edge

A vertex lists the positions of its edges: those that leave it and those that enter it, or in an undirected
graph all of them together, a loop once.
-/

namespace GraphViews.Graph

structure Node (V : Type) where
  property : V
  outgoing : Array Nat
  incoming : Array Nat

structure Link (E : Type) where
  source : Vertex
  target : Vertex
  property : E

structure Multigraph (V E : Type) where
  directed : Bool
  nodes : Array (Node V)
  links : Array (Link E)

inductive Direction where
  | outgoing | incoming
  deriving DecidableEq

/-- The endpoint at which an edge of this direction is held. -/
def Edge.anchor (e : Edge) : Direction → Vertex
  | .outgoing => e.source
  | .incoming => e.target

/-- In an undirected graph one list serves both directions. -/
def Node.listed {V : Type} (n : Node V) (directed : Bool) : Direction → Array Nat
  | .outgoing => n.outgoing
  | .incoming => if directed then n.incoming else n.outgoing

namespace Link

variable {E : Type}

def edge (l : Link E) (index : Nat) : Edge := ⟨index, l.source, l.target⟩

/-- Whether the link has the endpoints of `e`, which an undirected one may also have swapped. -/
def joins (l : Link E) (directed : Bool) (e : Edge) : Bool :=
  (l.source = e.source && l.target = e.target) ||
    (!directed && l.source = e.target && l.target = e.source)

end Link

namespace Multigraph

variable {V E : Type}

def empty (directed : Bool) : Multigraph V E := ⟨directed, #[], #[]⟩

def numVertices (g : Multigraph V E) : Nat := g.nodes.size

def numEdges (g : Multigraph V E) : Nat := g.links.size

def addVertex (g : Multigraph V E) (x : V) : Vertex × Multigraph V E :=
  (⟨g.nodes.size⟩, { g with nodes := g.nodes.push ⟨x, #[], #[]⟩ })

/-- Lists the edge at `index`, which joins `u` to `v`, with its endpoints. -/
def enlist (g : Multigraph V E) (u v : Vertex) (index : Nat) : Array (Node V) :=
  let leaving (n : Node V) : Node V := { n with outgoing := n.outgoing.push index }
  let entering (n : Node V) : Node V := { n with incoming := n.incoming.push index }
  if g.directed then (g.nodes.modify u.index leaving).modify v.index entering
  else if u = v then g.nodes.modify u.index leaving
  else (g.nodes.modify u.index leaving).modify v.index leaving

/-- Both endpoints have to be in the graph. -/
def addEdge (g : Multigraph V E) (u v : Vertex) (x : E) : Except Fault (Edge × Multigraph V E) :=
  if u.index < g.nodes.size ∧ v.index < g.nodes.size then
    let index := g.links.size
    .ok (⟨index, u, v⟩, { g with nodes := g.enlist u v index, links := g.links.push ⟨u, v, x⟩ })
  else .error (.foreignEndpoint u.index v.index)

/-- The vertex has to be in the graph. This is a debug assertion, and so is the one of `link`: the graph is that of a
build with such assertions. -/
def node (g : Multigraph V E) (v : Vertex) : Except Fault (Node V) :=
  match g.nodes[v.index]? with
  | some n => .ok n
  | none => .error (.foreignVertex v.index)

def foreignEdge (e : Edge) : Fault := .foreignEdge e.index e.source.index e.target.index

/-- The edge has to be in the graph, with the endpoints that it has there. A build without debug assertions takes any
edge whose index is in range. -/
def link (g : Multigraph V E) (e : Edge) : Except Fault (Link E) :=
  match g.links[e.index]? with
  | some l => if l.joins g.directed e then .ok l else .error (foreignEdge e)
  | none => .error (foreignEdge e)

def vertices (g : Multigraph V E) : List Vertex :=
  (List.range g.nodes.size).map Vertex.mk

def edges (g : Multigraph V E) : List Edge :=
  g.links.toList.mapIdx fun i l => l.edge i

/-- The edge at `index`, turned so that it is held at `v`. -/
def edgeAt (g : Multigraph V E) (v : Vertex) (d : Direction) (index : Nat) : Except Fault Edge :=
  match g.links[index]? with
  | some l =>
    let e := l.edge index
    .ok (if e.anchor d = v then e else e.reversed)
  | none => .error (.outOfBounds g.links.size index)

/-- The edges that leave or enter `v`, each with `v` as its source or target. -/
def incidence (g : Multigraph V E) (v : Vertex) (d : Direction) : Except Fault (List Edge) := do
  let n ← g.node v
  (n.listed g.directed d).toList.mapM (g.edgeAt v d)

def degree (g : Multigraph V E) (v : Vertex) (d : Direction) : Except Fault Nat := do
  let n ← g.node v
  return (n.listed g.directed d).size

def vertexProperty (g : Multigraph V E) (v : Vertex) : Except Fault V := do
  return (← g.node v).property

def edgeProperty (g : Multigraph V E) (e : Edge) : Except Fault E := do
  return (← g.link e).property

def modifyVertex (g : Multigraph V E) (v : Vertex) (f : V → V) :
    Except Fault (V × Multigraph V E) := do
  let n ← g.node v
  let nodes := g.nodes.modify v.index fun n => { n with property := f n.property }
  return (n.property, { g with nodes })

def putVertex (g : Multigraph V E) (v : Vertex) (x : V) : Except Fault (V × Multigraph V E) :=
  g.modifyVertex v fun _ => x

def modifyEdge (g : Multigraph V E) (e : Edge) (f : E → E) : Except Fault (E × Multigraph V E) := do
  let l ← g.link e
  let links := g.links.modify e.index fun l => { l with property := f l.property }
  return (l.property, { g with links })

def putEdge (g : Multigraph V E) (e : Edge) (x : E) : Except Fault (E × Multigraph V E) :=
  g.modifyEdge e fun _ => x

end Multigraph

end GraphViews.Graph
