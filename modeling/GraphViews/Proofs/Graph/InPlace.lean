import GraphViews.Graph.View
import GraphViews.Proofs.Graph.Changes
import GraphViews.Proofs.Lasting

/-!
# Changes in place

A graph is changed where it lies, one step after the other, and a step that fails takes nothing back. A call that is
refused leaves the graph as it was only because all that can fail in it comes before all that changes something.
-/

namespace GraphViews.Graph

open Lasting

variable {V E α : Type}

/-- Steps on a graph that lies in one place. -/
abbrev InPlace (V E α : Type) := Lasting Fault (Multigraph V E) α

namespace InPlace

def addVertex (x : V) : InPlace V E Vertex := do
  change fun g => { g with nodes := g.nodes.push ⟨x, #[], #[]⟩ }
  ask fun g => .ok ⟨g.nodes.size - 1⟩

def atNode (v : Vertex) (t : Node V → Node V) : InPlace V E Unit := do
  ask fun g => if v.index < g.nodes.size then .ok () else .error (.outOfBounds g.nodes.size v.index)
  change fun g => { g with nodes := g.nodes.modify v.index t }

/-- The link comes first, then its place in the lists, one endpoint after the other. -/
def addEdge (u v : Vertex) (x : E) : InPlace V E Edge := do
  ask fun g =>
    if u.index < g.nodes.size ∧ v.index < g.nodes.size then .ok ()
    else .error (.foreignEndpoint u.index v.index)
  let index ← ask fun g => .ok g.links.size
  change fun g => { g with links := g.links.push ⟨u, v, x⟩ }
  let directed ← ask fun g => .ok g.directed
  atNode u fun n => { n with outgoing := n.outgoing.push index }
  if directed then atNode v fun n => { n with incoming := n.incoming.push index }
  else if u ≠ v then atNode v fun n => { n with outgoing := n.outgoing.push index }
  ask fun g =>
    match g.links[index]? with
    | some l => .ok (l.edge index)
    | none => .error (.outOfBounds g.links.size index)

def modifyVertex (v : Vertex) (f : V → V) : InPlace V E V := do
  let n ← ask fun g => g.node v
  change fun g => { g with nodes := g.nodes.modify v.index fun n => { n with property := f n.property } }
  return n.property

def modifyEdge (e : Edge) (f : E → E) : InPlace V E E := do
  let l ← ask fun g => g.link e
  change fun g => { g with links := g.links.modify e.index fun l => { l with property := f l.property } }
  return l.property

theorem addVertex_on (x : V) (g : Multigraph V E) : (addVertex x).on g = settled g (.ok (g.addVertex x)) := by
  simp [addVertex, Multigraph.addVertex]

theorem addEdge_on (u v : Vertex) (x : E) (g : Multigraph V E) :
    (addEdge u v x).on g = settled g (g.addEdge u v x) := by
  by_cases huv : u.index < g.nodes.size ∧ v.index < g.nodes.size
  · -- Both lists are there, so that nothing after the first question fails.
    obtain ⟨hu, hv⟩ := huv
    rw [Multigraph.addEdge, if_pos ⟨hu, hv⟩]
    cases hd : g.directed with
    | true => simp [addEdge, Multigraph.enlist, atNode, hd, hu, hv, Link.edge]
    | false =>
      by_cases h : u = v
      · simp [addEdge, Multigraph.enlist, atNode, hd, hv, h, Link.edge]
      · simp [addEdge, Multigraph.enlist, atNode, hd, hu, hv, h, Link.edge]
  · rw [Multigraph.addEdge, if_neg huv]
    simp [addEdge, huv]

theorem modifyVertex_on (v : Vertex) (f : V → V) (g : Multigraph V E) :
    (modifyVertex v f).on g = settled g (g.modifyVertex v f) := by
  cases hn : g.node v <;> simp [modifyVertex, Multigraph.modifyVertex, hn, Except.map]

theorem modifyEdge_on (e : Edge) (f : E → E) (g : Multigraph V E) :
    (modifyEdge e f).on g = settled g (g.modifyEdge e f) := by
  cases hl : g.link e <;> simp [modifyEdge, Multigraph.modifyEdge, hl, Except.map]

end InPlace

end GraphViews.Graph
