import GraphViews.Proofs.Graph.Adjacency
import GraphViews.Proofs.Graph.Delegation
import GraphViews.Proofs.Graph.Verdicts

/-!
# What a graph answers at a vertex

The edges at a vertex and their number are read off the enumeration of all edges, each turned to the vertex.
-/

namespace GraphViews.Graph

variable {V E : Type}

/-- The edge as the vertex gives it out. -/
def Edge.turned (e : Edge) (v : Vertex) (d : Direction) : Edge :=
  if e.anchor d = v then e else e.reversed

namespace Edge

theorem map_index_turned (es : List Edge) (v : Vertex) (d : Direction) :
    (es.map fun e => e.turned v d).map Edge.index = es.map Edge.index := by
  rw [List.map_map]
  refine List.map_congr_left ?_
  intro e _
  simp only [Function.comp_apply, turned]
  split <;> rfl

theorem turned_eq_self {e : Edge} {v : Vertex} {d : Direction} (h : e.heldAt true v d = true) :
    e.turned v d = e := by
  have hv : e.anchor d = v := by simpa [heldAt] using h
  simp [turned, hv]

theorem anchor_turned {e : Edge} {directed : Bool} {v : Vertex} {d : Direction}
    (h : e.heldAt directed v d = true) : (e.turned v d).anchor d = v := by
  by_cases hv : e.anchor d = v
  · simp [turned, hv]
  · cases directed <;> cases d <;> simp_all [heldAt, turned, anchor, reversed]

/-- An undirected edge is given out as an in-edge the other way round. -/
theorem turned_incoming {e : Edge} {v : Vertex} (h : e.heldAt false v .outgoing = true) :
    e.turned v .incoming = (e.turned v .outgoing).reversed := by
  obtain ⟨i, s, t⟩ := e
  by_cases hs : s = v <;> by_cases ht : t = v <;> simp_all [heldAt, turned, anchor, reversed]

/-- Turning the edges that a vertex holds by their own end changes nothing. -/
theorem map_turned_directed (es : List Edge) (v : Vertex) (d : Direction) :
    (es.filter fun e => e.heldAt true v d).map (fun e => e.turned v d) =
      es.filter fun e => e.anchor d = v := by
  have h : ∀ e ∈ es.filter (fun e => e.heldAt true v d), e.turned v d = e :=
    fun e he => turned_eq_self (List.mem_filter.mp he).2
  rw [List.map_congr_left h, List.map_id']
  simp [heldAt]

theorem map_turned_incoming (es : List Edge) (v : Vertex) :
    (es.filter fun e => e.heldAt false v .incoming).map (fun e => e.turned v .incoming) =
      ((es.filter fun e => e.heldAt false v .outgoing).map fun e => e.turned v .outgoing).map
        Edge.reversed := by
  rw [List.map_map]
  exact List.map_congr_left fun e he => turned_incoming (List.mem_filter.mp he).2

end Edge

namespace Multigraph

theorem node_eq_ok {g : Multigraph V E} {v : Vertex} {n : Node V} :
    g.node v = .ok n ↔ g.nodes[v.index]? = some n := by
  unfold node
  split <;> simp_all

theorem exists_node {g : Multigraph V E} {v : Vertex} (hv : v.index < g.numVertices) :
    ∃ n, g.node v = .ok n :=
  ⟨g.nodes[v.index], node_eq_ok.mpr (Array.getElem?_eq_getElem hv)⟩

theorem node_foreign {g : Multigraph V E} {v : Vertex} (hv : ¬v.index < g.numVertices) :
    g.node v = .error (.foreignVertex v.index) := by
  rw [node, Array.getElem?_eq_none (Nat.le_of_not_lt hv)]

theorem incidence_foreign {g : Multigraph V E} {v : Vertex} (hv : ¬v.index < g.numVertices)
    (d : Direction) : g.incidence v d = .error (.foreignVertex v.index) := by
  simp [incidence, node_foreign hv]

private theorem edgeAt_of_mem {g : Multigraph V E} {e : Edge} (he : e ∈ g.edges) (v : Vertex)
    (d : Direction) : g.edgeAt v d e.index = .ok (e.turned v d) := by
  obtain ⟨l, hl, hs, ht⟩ := mem_edges.mp he
  have hle : l.edge e.index = e := by
    rw [Link.edge, hs, ht]
  simp only [edgeAt, hl, hle, Edge.turned]

namespace Consistent

variable {g : Multigraph V E}

theorem incidence_eq (hg : g.Consistent) {v : Vertex} (hv : v.index < g.numVertices)
    (d : Direction) : g.incidence v d = .ok ((g.held v d).map fun e => e.turned v d) := by
  obtain ⟨n, hn⟩ := exists_node hv
  rw [incidence, hn, Fallible.ok_bind, hg.listed v n (node_eq_ok.mp hn) d, List.mapM_map]
  refine Fallible.mapM_eq_ok_map ?_
  intro e he
  exact edgeAt_of_mem (List.mem_filter.mp he |>.1) v d

theorem degree_eq (hg : g.Consistent) {v : Vertex} (hv : v.index < g.numVertices)
    (d : Direction) : g.degree v d = .ok (g.held v d).length := by
  obtain ⟨n, hn⟩ := exists_node hv
  have h := congrArg List.length (hg.listed v n (node_eq_ok.mp hn) d)
  rw [List.length_map, Array.length_toList] at h
  rw [degree, hn, Fallible.ok_bind, h]
  rfl

/-- The length of a list is how many edges are given out, and both are refused together. -/
theorem degree_eq_length (hg : g.Consistent) (v : Vertex) (d : Direction) :
    g.degree v d = (g.incidence v d).map List.length := by
  by_cases hv : v.index < g.numVertices
  · simp [hg.degree_eq hv d, hg.incidence_eq hv d, Except.map]
  · simp [degree, incidence_foreign hv, node_foreign hv, Except.map]

end Consistent

end Multigraph

/-- Every query at `v` has an answer, and what it gives to traverse can be traversed to the end. -/
structure View.Answers (w : View V E) (v : Vertex) : Prop where
  property : ∃ x, w.vertexProperty v = .ok x
  write : ∀ f, ∃ r, w.modifyVertex v f = .ok r
  outEdges : ∃ t, w.outEdges v = .ok t ∧ ∃ es, t.toList = .ok es
  inEdges : ∃ t, w.inEdges v = .ok t ∧ ∃ es, t.toList = .ok es
  outDegree : ∃ n, w.outDegree v = .ok n
  inDegree : ∃ n, w.inDegree v = .ok n
  neighbors : ∃ t, w.neighbors v = .ok t ∧ ∃ vs, t.toList = .ok vs
  edgesBetween : ∀ u, ∃ t, w.edgesBetween v u = .ok t ∧ ∃ es, t.toList = .ok es
  edge? : ∀ u, ∃ o, w.edge? v u = .ok o

namespace Multigraph

theorem Consistent.answers {g : Multigraph V E} (hg : g.Consistent) {v : Vertex}
    (hv : v.index < g.numVertices) : (View.whole g).Answers v := by
  obtain ⟨n, hn⟩ := exists_node hv
  have hi (d : Direction) : (View.whole g).incidence v d =
      .ok (.ofList ((g.held v d).map fun e => e.turned v d)) := by
    rw [View.incidence, hg.incidence_eq hv d]
    rfl
  let outs := Traversal.ofList ((g.held v .outgoing).map fun e => e.turned v .outgoing)
  have ho (xs : List Edge) := Traversal.pending_ofList xs
  constructor
  case property => exact ⟨n.property, by simp [View.vertexProperty, vertexProperty, hn]⟩
  case write =>
    intro f
    simp [View.modifyVertex, modifyVertex, hn, Except.map]
  case outEdges => exact ⟨_, hi .outgoing, _, Traversal.toList_of_pending (ho _)⟩
  case inEdges => exact ⟨_, hi .incoming, _, Traversal.toList_of_pending (ho _)⟩
  case outDegree => exact ⟨_, hg.degree_eq hv .outgoing⟩
  case inDegree => exact ⟨_, hg.degree_eq hv .incoming⟩
  case neighbors =>
    have h : (View.whole g).neighbors v = .ok (outs.map Edge.target) := by
      simp [View.neighbors, View.outEdges, hi, outs]
    exact ⟨_, h, _, Traversal.toList_of_pending (Traversal.pending_map (ho _))⟩
  case edgesBetween =>
    intro u
    have h : (View.whole g).edgesBetween v u = .ok (outs.filter (.ofPred fun e => e.target = u)) := by
      simp [View.edgesBetween, View.outEdges, hi, outs]
    exact ⟨_, h, _, Traversal.toList_of_pending (Traversal.pending_filter (ho _))⟩
  case edge? =>
    intro u
    simp [View.edge?, hg.incidence_eq hv]

private theorem turned_held_directed {g : Multigraph V E} (hd : g.directed = true) (v : Vertex)
    (d : Direction) :
    (g.held v d).map (fun e => e.turned v d) = g.edges.filter fun e => e.anchor d = v := by
  rw [held, hd]
  exact Edge.map_turned_directed g.edges v d

private theorem held_undirected {g : Multigraph V E} (hd : g.directed = false) (v : Vertex) (d : Direction) :
    g.held v d = g.edges.filter fun e => e.source = v ∨ e.target = v := by
  simp [held, Edge.heldAt, hd]

theorem turned_held_undirected {g : Multigraph V E} (hd : g.directed = false) (v : Vertex) :
    (g.held v .incoming).map (fun e => e.turned v .incoming) =
      ((g.held v .outgoing).map fun e => e.turned v .outgoing).map Edge.reversed := by
  rw [held, held, hd]
  exact Edge.map_turned_incoming g.edges v

theorem anchor_of_mem_turned {g : Multigraph V E} {v : Vertex} {d : Direction} {e : Edge}
    (he : e ∈ (g.held v d).map fun e => e.turned v d) : e.anchor d = v := by
  obtain ⟨e', he', rfl⟩ := List.mem_map.mp he
  exact Edge.anchor_turned (List.mem_filter.mp he').2

/-- Whatever changes built a graph, its vertices list its edges as the enumeration has them, and answer. -/
theorem incidence_after (directed : Bool) (cs : List (Change V E)) :
    let g := (empty directed : Multigraph V E).after cs
    (∀ l ∈ g.links, l.source.index < g.numVertices ∧ l.target.index < g.numVertices) ∧
    g.edges = (empty directed : Multigraph V E).issued cs ∧
    g.edges.map Edge.index = List.range g.numEdges ∧
    ∀ v : Vertex, v.index < g.numVertices →
      (View.whole g).Answers v ∧
      ∃ outs ins : List Edge,
        (View.whole g).outEdges v = .ok (.ofList outs) ∧
        (View.whole g).inEdges v = .ok (.ofList ins) ∧
        (View.whole g).outDegree v = .ok outs.length ∧
        (View.whole g).inDegree v = .ok ins.length ∧
        (∀ e ∈ outs, e.source = v) ∧ (∀ e ∈ ins, e.target = v) ∧
        (directed = true →
          outs = g.edges.filter (fun e => e.source = v) ∧
          ins = g.edges.filter (fun e => e.target = v)) ∧
        (directed = false →
          outs = (g.edges.filter fun e => e.source = v ∨ e.target = v).map
            (fun e => if e.source = v then e else e.reversed) ∧
          ins = outs.map Edge.reversed) := by
  intro g
  have hg : g.Consistent := (Consistent.empty directed).after cs
  have hd : g.directed = directed := directed_after _ cs
  have he : g.edges = (empty directed : Multigraph V E).issued cs := edges_after _ cs
  refine ⟨hg.inside, he, edges_map_index g, fun v hv => ⟨hg.answers hv, ?_⟩⟩
  refine ⟨(g.held v .outgoing).map fun e => e.turned v .outgoing,
    (g.held v .incoming).map fun e => e.turned v .incoming, ?_, ?_, ?_, ?_, ?_, ?_, ?_, ?_⟩
  · simp [View.outEdges, View.incidence, hg.incidence_eq hv]
  · simp [View.inEdges, View.incidence, hg.incidence_eq hv]
  · simp [View.outDegree, View.degree, hg.degree_eq hv]
  · simp [View.inDegree, View.degree, hg.degree_eq hv]
  · exact fun e => anchor_of_mem_turned
  · exact fun e => anchor_of_mem_turned
  · intro h
    rw [h] at hd
    exact ⟨turned_held_directed hd v .outgoing, turned_held_directed hd v .incoming⟩
  · intro h
    rw [h] at hd
    refine ⟨?_, turned_held_undirected hd v⟩
    rw [held_undirected hd]
    rfl

/-- A loop and an edge that is listed from its other end, after an edge to nowhere was refused. -/
theorem incidence_after_refusal :
    let g := (empty false : Multigraph Unit Unit).after
      [.addVertex (), .addVertex (), .addEdge ⟨0⟩ ⟨2⟩ (), .addEdge ⟨1⟩ ⟨1⟩ (), .addEdge ⟨0⟩ ⟨1⟩ ()]
    (1 < g.numVertices) ∧
      (View.whole g).outEdges ⟨1⟩ = .ok (.ofList [⟨0, ⟨1⟩, ⟨1⟩⟩, ⟨1, ⟨1⟩, ⟨0⟩⟩]) ∧
      (View.whole g).inDegree ⟨1⟩ = .ok 2 := by
  intro g
  have hv : 1 < g.numVertices := by decide
  obtain ⟨-, -, -, h⟩ := incidence_after (V := Unit) (E := Unit) false
    [.addVertex (), .addVertex (), .addEdge ⟨0⟩ ⟨2⟩ (), .addEdge ⟨1⟩ ⟨1⟩ (), .addEdge ⟨0⟩ ⟨1⟩ ()]
  obtain ⟨-, outs, ins, ho, -, -, hi, -, -, -, hu⟩ := h ⟨1⟩ hv
  obtain ⟨rfl, rfl⟩ := hu rfl
  exact ⟨hv, ho, hi⟩

end Multigraph

end GraphViews.Graph
