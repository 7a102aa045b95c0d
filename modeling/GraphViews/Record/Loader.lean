import GraphViews.Tables.Selection
import GraphViews.Record.Basic
import Std.Data.TreeMap

/-!
# Data graphs from rows

All vertices are placed before the first edge. Vertices and edges keep the order of their rows.
-/

namespace GraphViews.Record

open GraphViews.Tables GraphViews.Graph

inductive LoadError where
  | unreadable (error : DatabaseError)
  | duplicateVertex (vid : Int64)
  | unknownVertex (src dst vid : Int64)
  | fault (fault : Fault)
  deriving DecidableEq

def LoadError.message : LoadError → String
  | unreadable e => e.message
  | duplicateVertex vid => s!"duplicate vertex {vid}"
  | unknownVertex src dst vid => s!"edge ({src}, {dst}) names unknown vertex {vid}"
  | fault f => f.message

/-- A graph under construction, and the vertex of each id. -/
structure Placed where
  graph : DataGraph
  places : Std.TreeMap Int64 Vertex

def placeVertex (p : Placed) (r : VertexRow) : Except LoadError Placed :=
  if p.places.contains r.vid then .error (.duplicateVertex r.vid)
  else
    let (v, graph) := p.graph.addVertex r
    .ok ⟨graph, p.places.insert r.vid v⟩

def placeVertices (directed : Bool) (rows : List VertexRow) : Except LoadError Placed :=
  rows.foldlM placeVertex ⟨.empty directed, ∅⟩

def endpoint (places : Std.TreeMap Int64 Vertex) (r : EdgeRow) (vid : Int64) :
    Except LoadError Vertex :=
  match places[vid]? with
  | some v => .ok v
  | none => .error (.unknownVertex r.src r.dst vid)

def placeEdge (places : Std.TreeMap Int64 Vertex) (g : DataGraph) (r : EdgeRow) :
    Except LoadError DataGraph := do
  let u ← endpoint places r r.src
  let v ← endpoint places r r.dst
  match g.addEdge u v r.data with
  | .ok (_, g') => return g'
  | .error f => throw (.fault f)

def placeEdges (p : Placed) (rows : List EdgeRow) : Except LoadError DataGraph :=
  rows.foldlM (placeEdge p.places) p.graph

/-- The graph of some rows. -/
def load (directed : Bool) (vertices : List VertexRow) (edges : List EdgeRow) :
    Except LoadError DataGraph := do
  placeEdges (← placeVertices directed vertices) edges

def unreadable {α : Type} : Except DatabaseError α → Except LoadError α
  | .ok x => .ok x
  | .error e => .error (.unreadable e)

def readVertices (db : Database) : Except LoadError (List VertexRow) := unreadable do
  let t ← db.find "vertices"
  let vid ← t.locate "vid"
  let vlabel ← t.locate "vlabel"
  t.ordered.mapM fun r => do
    return ⟨← t.integer r 0 vid, ← t.integer r 1 vlabel⟩

def readEdges (db : Database) : Except LoadError (List EdgeRow) := unreadable do
  let t ← db.find "edges"
  let src ← t.locate "src"
  let dst ← t.locate "dst"
  let elabel ← t.locate "elabel"
  let capacity ← t.locate "capacity"
  t.ordered.mapM fun r => do
    return ⟨← t.integer r 0 src, ← t.integer r 1 dst, ← t.integer r 2 elabel,
      ← t.integer r 3 capacity⟩

/-- The graph of the two tables of a database. -/
def loadDatabase (db : Database) (directed : Bool) : Except LoadError DataGraph := do
  let vertices ← readVertices db
  let edges ← readEdges db
  load directed vertices edges

end GraphViews.Record
