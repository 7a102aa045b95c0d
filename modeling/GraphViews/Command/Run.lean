import GraphViews.Command.Arguments
import GraphViews.Command.Log
import GraphViews.Graph.Membership
import GraphViews.Record.Grid
import GraphViews.Record.Loader
import GraphViews.Record.RecordFilter
import Std.Data.TreeSet

/-!
# Running a command line

A command loads the graph of a database, makes a view of it, and prints the view and its summary once
everything has succeeded.
-/

namespace GraphViews.Command

open GraphViews.Tables GraphViews.Filter GraphViews.Graph GraphViews.Record

inductive Failure where
  | load (error : LoadError)
  | filter (error : FilterError)
  | invalidId (text : String)
  | fault (fault : Fault)
  deriving DecidableEq

def Failure.message : Failure → String
  | load e => e.message
  | filter e => e.message
  | invalidId text => s!"invalid vertex id {text}"
  | fault f => f.message

abbrev Step := Logged Failure

def ofFault {α : Type} (x : Except Fault α) : Step α := .lift .fault x

def loadGraph (db : Database) (directed : Bool) : Step DataGraph := do
  let vertices ← .lift .load (readVertices db)
  .log .debug .loading s!"read {vertices.length} vertex records"
  let edges ← .lift .load (readEdges db)
  .log .debug .loading s!"read {edges.length} edge records"
  .log .info .loading "adding vertices..."
  let placed ← .lift .load (placeVertices directed vertices)
  .log .info .loading "adding edges..."
  let g ← .lift .load (placeEdges placed edges)
  .log .info .loading s!"loaded {g.numVertices} vertices and {g.numEdges} edges"
  return g

def openGraph (files : String → Database) (r : Request) : Step DataGraph := do
  .log .info .program s!"opening {r.path}"
  loadGraph (files r.path) r.directed

def compileFilter (text : String) (c : Context) : Step Constraint := do
  let k ← .lift .filter (compile text c)
  .log .debug .filters
    s!"compiled {c.noun} filter \x60{text}\x60 to {k.expr.shown}"
  return k

/-- A filter that is not given keeps everything. -/
def showing (g : DataGraph) (vertices edges : Option String) : Step DataView := do
  let v ← ofFault (VertexFilter.on g (← compileFilter (vertices.getD "true") .vertex))
  let e ← ofFault (EdgeFilter.on g (← compileFilter (edges.getD "true") .edge))
  return .filtered (.handle (.whole g)) ⟨e.test, v.test⟩

def readId (text : String) : Except Failure Int64 :=
  match Decimal.read? text with
  | some n => .ok n
  | none => .error (.invalidId text)

def selected (g : DataGraph) (vids : Std.TreeSet Int64) : Except Fault (Std.TreeSet Vertex) := do
  let chosen ← g.vertices.filterM fun v => return vids.contains (← g.vertexProperty v).vid
  return .ofList chosen

def induced (g : DataGraph) (complement : Bool) (given : List String) : Step DataView := do
  let vids : Std.TreeSet Int64 := .ofList (← .lift id (given.mapM readId))
  let subset ← ofFault (selected g vids)
  if subset.size < vids.size then
    .log .warn .program s!"{vids.size - subset.size} of the given vertex ids are not in the graph"
  let test : Test Vertex := if complement then .outside subset else .inside subset
  return .filtered (.handle (.whole g)) (.induced test)

def residual (g : DataGraph) : Step DataView :=
  let capacity := (View.whole g).edgeField EdgeData.capacity
  return .filtered (.handle (.whole g)) (.edgesOnly (.residual 0 capacity))

/-- The tables of a view over its summary. -/
def printed (w : DataView) : Except Fault String := do
  let snapshot ← Snapshot.ofView w
  let summary ← Summary.ofView w
  return snapshot.text ++ summary.text ++ "\n"

def perform (files : String → Database) (r : Request) : Step String := do
  let g ← openGraph files r
  let w ← match r.task with
    | .filtered vertices edges => showing g vertices edges
    | .induced complement vids => induced g complement vids
    | .residual => residual g
  ofFault (printed w)

/-- What a run leaves: its exit code, its output, the records it was asked to show, and why it failed. -/
structure Report where
  code : Nat
  stdout : String
  records : List LogRecord
  complaint : Option String
  deriving DecidableEq

def Report.ofStep (verbosity : Nat) (s : Step String) : Report :=
  let records := s.records.filter fun r => r.level.verbosity ≤ verbosity
  match s.result with
  | .ok text => ⟨0, text, records, none⟩
  | .error e => ⟨1, "", records, some e.message⟩

def usage : String :=
  "fgraph [-v] show|subset|residual [--undirected] DB, with --vertices EXPR and --edges EXPR for show, " ++
    "VID... and --complement for subset"

def run (files : String → Database) (args : List String) : Report :=
  match readArguments 0 args with
  | .run verbosity request => .ofStep verbosity (perform files request)
  | .version text => ⟨0, text ++ "\n", [], none⟩
  | .help => ⟨0, usage ++ "\n", [], none⟩
  | .refused => ⟨1, "", [], some usage⟩

end GraphViews.Command
