import GraphViews.Proofs.Graph.Calls

/-!
# The shape of a graph

All that a view shows apart from properties. A write leaves it alone, under any layers.
-/

namespace GraphViews.Graph

variable {V E : Type}

/-- The views show the same in the same order, up to the values at it. Neighbors and the edges between two vertices are
read off the out-edges. -/
structure View.SameShape (w z : View V E) : Prop where
  isDirected : z.isDirected = w.isDirected
  numVertices : z.numVertices = w.numVertices
  numEdges : z.numEdges = w.numEdges
  vertices : z.vertices = w.vertices
  edges : z.edges = w.edges
  incidence : ∀ v d, z.incidence v d = w.incidence v d
  degree : ∀ v d, z.degree v d = w.degree v d
  edge? : ∀ u v, z.edge? u v = w.edge? u v

/-- Layers go by what lies under them. -/
theorem View.SameShape.rebase {g h : Multigraph V E} (hs : (View.whole g).SameShape (.whole h)) (w : View V E) :
    (w.rebase g).SameShape (w.rebase h) := by
  induction w with
  | whole _ => exact hs
  | handle w ih =>
    obtain ⟨hd, hn, hm, hv, he, hi, hg, hq⟩ := ih
    exact ⟨hd, hn, hm, hv, he, hi, hg, hq⟩
  | filtered w l ih =>
    have hi (v : Vertex) (d : Direction) :
        ((w.rebase h).filtered l).incidence v d = ((w.rebase g).filtered l).incidence v d := by
      rw [View.incidence, View.incidence, ih.incidence]
    refine ⟨ih.isDirected, ih.numVertices, ih.numEdges, ?_, ?_, hi, ?_, ?_⟩
    · exact congrArg (Traversal.filter l.vertex) ih.vertices
    · exact congrArg (Traversal.filter l.onEdge) ih.edges
    · intro v d
      exact congrArg (fun t => t >>= Traversal.count) (hi v d)
    · intro u v
      simp only [View.rebase, View.edge?, ih.edge?]

namespace Multigraph

def listed (g : Multigraph V E) (v : Vertex) (d : Direction) : Except Fault (Array Nat) :=
  (g.node v).map fun n => n.listed g.directed d

private theorem incidence_eq_listed (g : Multigraph V E) (v : Vertex) (d : Direction) :
    g.incidence v d = g.listed v d >>= fun is => is.toList.mapM (g.edgeAt v d) := by
  rw [incidence, listed]
  cases g.node v <;> rfl

private theorem degree_eq_listed (g : Multigraph V E) (v : Vertex) (d : Direction) :
    g.degree v d = (g.listed v d).map Array.size := by
  rw [degree, listed]
  cases g.node v <;> rfl

/-- What is given out at a vertex is read off the enumeration of the edges. -/
theorem edgeAt_eq_edges (g : Multigraph V E) (v : Vertex) (d : Direction) (i : Nat) :
    g.edgeAt v d i = match g.edges[i]? with
      | some e => .ok (e.turned v d)
      | none => .error (.outOfBounds g.numEdges i) := by
  rw [edgeAt, edges, List.getElem?_mapIdx, Array.getElem?_toList]
  cases g.links[i]? <;> rfl

/-- The shape of a graph is in the number of its vertices, its edges and the positions at each vertex. -/
theorem sameShape_of_listed {g h : Multigraph V E} (hd : h.directed = g.directed)
    (hn : h.numVertices = g.numVertices) (he : h.edges = g.edges) (hl : ∀ v d, h.listed v d = g.listed v d) :
    (View.whole g).SameShape (.whole h) := by
  have hm : h.numEdges = g.numEdges := by
    rw [← length_edges, ← length_edges, he]
  have hi (v : Vertex) (d : Direction) : h.incidence v d = g.incidence v d := by
    have hat : h.edgeAt v d = g.edgeAt v d := by
      funext i
      rw [edgeAt_eq_edges, edgeAt_eq_edges, he, hm]
    rw [incidence_eq_listed, incidence_eq_listed, hl, hat]
  refine ⟨hd, hn, hm, ?_, ?_, ?_, ?_, ?_⟩
  · exact congrArg (fun n => Traversal.ofList ((List.range n).map Vertex.mk)) hn
  · exact congrArg Traversal.ofList he
  · intro v d
    rw [View.incidence, View.incidence, hi]
  · intro v d
    rw [View.degree, View.degree, degree_eq_listed, degree_eq_listed, hl]
  · intro u v
    rw [View.edge?, View.edge?, hi]

theorem sameShape_writeVertex (g : Multigraph V E) (v : Vertex) (f : V → V) :
    (View.whole g).SameShape (.whole
      { g with nodes := g.nodes.modify v.index fun n => { n with property := f n.property } }) := by
  refine sameShape_of_listed rfl (Array.size_modify ..) rfl ?_
  intro u d
  simp only [listed, node, Array.getElem?_modify]
  by_cases hi : v.index = u.index
  · rw [if_pos hi]
    cases g.nodes[u.index]? with
    | none => rfl
    | some n => cases d <;> rfl
  · rw [if_neg hi]

theorem sameShape_writeEdge (g : Multigraph V E) (e : Edge) (f : E → E) :
    (View.whole g).SameShape (.whole
      { g with links := g.links.modify e.index fun l => { l with property := f l.property } }) :=
  sameShape_of_listed rfl rfl (edges_modify g g.nodes e.index f) fun _ _ => rfl

end Multigraph

end GraphViews.Graph
