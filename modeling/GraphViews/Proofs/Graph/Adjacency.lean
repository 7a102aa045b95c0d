import GraphViews.Proofs.Graph.Changes

/-!
# The lists at the vertices

Whatever changes built a graph, each vertex lists the positions of its edges in the order of the enumeration.
-/

namespace GraphViews.Graph

variable {V E : Type}

theorem Vertex.eq_iff {u v : Vertex} : u = v ↔ u.index = v.index := by
  cases u
  cases v
  simp

/-- Whether a vertex lists the edge: at its end of the direction, or without directions at either end. -/
def Edge.heldAt (e : Edge) (directed : Bool) (v : Vertex) (d : Direction) : Bool :=
  if directed then e.anchor d = v else e.source = v || e.target = v

namespace Multigraph

/-- The edges that a vertex lists. -/
def held (g : Multigraph V E) (v : Vertex) (d : Direction) : List Edge :=
  g.edges.filter fun e => e.heldAt g.directed v d

/-- All links are between vertices of the graph, and each vertex lists its edges once and in order. -/
structure Consistent (g : Multigraph V E) : Prop where
  inside : ∀ l ∈ g.links, l.source.index < g.numVertices ∧ l.target.index < g.numVertices
  listed : ∀ (v : Vertex) (n : Node V), g.nodes[v.index]? = some n → ∀ d : Direction,
    (n.listed g.directed d).toList = (g.held v d).map Edge.index

theorem getElem?_enlist_directed {g : Multigraph V E} (hd : g.directed = true) (u v : Vertex)
    (i k : Nat) :
    (g.enlist u v i)[k]? = g.nodes[k]?.map fun n =>
      ⟨n.property, if u.index = k then n.outgoing.push i else n.outgoing,
        if v.index = k then n.incoming.push i else n.incoming⟩ := by
  rw [enlist, if_pos hd, Array.getElem?_modify, Array.getElem?_modify]
  cases g.nodes[k]? with
  | none => simp
  | some n => by_cases hu : u.index = k <;> by_cases hv : v.index = k <;> simp [hu, hv]

theorem getElem?_enlist_undirected {g : Multigraph V E} (hd : g.directed = false) (u v : Vertex)
    (i k : Nat) :
    (g.enlist u v i)[k]? = g.nodes[k]?.map fun n =>
      ⟨n.property, if u.index = k ∨ v.index = k then n.outgoing.push i else n.outgoing,
        n.incoming⟩ := by
  rw [enlist, if_neg (by simp [hd])]
  -- A loop is listed once, so that two lists change only between different vertices.
  by_cases huv : u = v
  · subst huv
    rw [if_pos rfl, Array.getElem?_modify]
    cases g.nodes[k]? with
    | none => simp
    | some n => by_cases hu : u.index = k <;> simp [hu]
  · have hne : u.index ≠ v.index := fun h => huv (Vertex.eq_iff.mpr h)
    rw [if_neg huv, Array.getElem?_modify, Array.getElem?_modify]
    cases g.nodes[k]? with
    | none => simp
    | some n =>
      by_cases hu : u.index = k
      · have hv : v.index ≠ k := fun hv => hne (hu.trans hv.symm)
        simp [hu, hv]
      · by_cases hv : v.index = k <;> simp [hu, hv]

/-- The edge goes into the lists of the vertices that hold it, behind what they list already. -/
theorem getElem?_enlist {g : Multigraph V E} {u v w : Vertex} {i : Nat} {n : Node V}
    (h : (g.enlist u v i)[w.index]? = some n) :
    ∃ n₀, g.nodes[w.index]? = some n₀ ∧ n.property = n₀.property ∧ ∀ d,
      (n.listed g.directed d).toList = (n₀.listed g.directed d).toList ++
        if (Edge.mk i u v).heldAt g.directed w d then [i] else [] := by
  cases hd : g.directed with
  | true =>
    rw [getElem?_enlist_directed hd, Option.map_eq_some_iff] at h
    obtain ⟨n₀, hn₀, rfl⟩ := h
    refine ⟨n₀, hn₀, rfl, fun d => ?_⟩
    cases d with
    | outgoing =>
      by_cases hu : u.index = w.index <;>
        simp [Node.listed, Edge.heldAt, Edge.anchor, Vertex.eq_iff, hu]
    | incoming =>
      by_cases hv : v.index = w.index <;>
        simp [Node.listed, Edge.heldAt, Edge.anchor, Vertex.eq_iff, hv]
  | false =>
    rw [getElem?_enlist_undirected hd, Option.map_eq_some_iff] at h
    obtain ⟨n₀, hn₀, rfl⟩ := h
    refine ⟨n₀, hn₀, rfl, fun d => ?_⟩
    by_cases huv : u.index = w.index ∨ v.index = w.index <;> cases d <;>
      simp [Node.listed, Edge.heldAt, Vertex.eq_iff, huv]

theorem size_enlist (g : Multigraph V E) (u v : Vertex) (i : Nat) :
    (g.enlist u v i).size = g.nodes.size := by
  unfold enlist
  split
  · simp
  · split <;> simp

namespace Consistent

variable {g : Multigraph V E}

theorem lt_of_mem (hg : g.Consistent) {e : Edge} (he : e ∈ g.edges) :
    e.source.index < g.numVertices ∧ e.target.index < g.numVertices := by
  obtain ⟨l, hl, hs, ht⟩ := mem_edges.mp he
  have h := hg.inside l (Array.mem_of_getElem? hl)
  rwa [hs, ht] at h

private theorem held_foreign (hg : g.Consistent) {v : Vertex} (hv : ¬v.index < g.numVertices)
    (d : Direction) : g.held v d = [] := by
  refine List.filter_eq_nil_iff.mpr ?_
  intro e he hh
  have hlt := hg.lt_of_mem he
  unfold Edge.heldAt at hh
  split at hh
  · cases d <;> grind [Edge.anchor]
  · grind

theorem empty (directed : Bool) : (empty directed : Multigraph V E).Consistent where
  inside l hl := by simp [Multigraph.empty] at hl
  listed v n hn := by simp [Multigraph.empty] at hn

theorem addVertex (hg : g.Consistent) (x : V) :
    ({ g with nodes := g.nodes.push ⟨x, #[], #[]⟩ } : Multigraph V E).Consistent where
  inside l hl := by
    have h := hg.inside l hl
    simp only [numVertices, Array.size_push] at h ⊢
    omega
  listed v n hn d := by
    rw [Array.getElem?_push] at hn
    split at hn
    · rename_i hv
      cases hn
      have h := hg.held_foreign (v := v) (Nat.not_lt_of_le (Nat.le_of_eq hv.symm)) d
      change _ = (g.held v d).map Edge.index
      rw [h]
      cases d <;> simp [Node.listed]
    · exact hg.listed v n hn d

theorem addEdge (hg : g.Consistent) {u v : Vertex} (hu : u.index < g.numVertices)
    (hv : v.index < g.numVertices) (x : E) :
    ({ g with nodes := g.enlist u v g.numEdges, links := g.links.push ⟨u, v, x⟩ } :
      Multigraph V E).Consistent where
  inside l hl := by
    change _ < (g.enlist u v g.numEdges).size ∧ _ < (g.enlist u v g.numEdges).size
    rw [size_enlist]
    rcases Array.mem_push.mp hl with hl | rfl
    · exact hg.inside l hl
    · exact ⟨hu, hv⟩
  listed w n hn d := by
    obtain ⟨n₀, hn₀, -, h⟩ := getElem?_enlist hn
    change (n.listed g.directed d).toList = _
    rw [h d, hg.listed w n₀ hn₀ d]
    rw [held, held, edges_push, List.filter_append, List.map_append]
    congr 1
    by_cases he : (Edge.mk g.numEdges u v).heldAt g.directed w d <;> simp [he]

theorem writeVertex (hg : g.Consistent) (v : Vertex) (f : V → V) :
    ({ g with nodes := g.nodes.modify v.index fun n => { n with property := f n.property } } :
      Multigraph V E).Consistent where
  inside l hl := by simpa [numVertices] using hg.inside l hl
  listed w n hn d := by
    rw [Array.getElem?_modify] at hn
    split at hn
    · obtain ⟨n₀, hn₀, rfl⟩ := Option.map_eq_some_iff.mp hn
      have h := hg.listed w n₀ hn₀ d
      cases d <;> exact h
    · exact hg.listed w n hn d

theorem writeEdge (hg : g.Consistent) (e : Edge) (f : E → E) :
    ({ g with links := g.links.modify e.index fun l => { l with property := f l.property } } :
      Multigraph V E).Consistent where
  inside l hl := by
    obtain ⟨i, hi, rfl⟩ := Array.mem_iff_getElem.mp hl
    rw [Array.getElem_modify]
    have h := hg.inside _ (Array.getElem_mem (by simpa using hi))
    split <;> exact h
  listed v n hn d := by
    rw [held, edges_modify]
    exact hg.listed v n hn d

theorem after (hg : g.Consistent) (cs : List (Change V E)) : (g.after cs).Consistent := by
  refine after_induction hg ?_ cs
  intro g c h hg hc
  obtain ⟨x, -, rfl⟩ | ⟨u, v, x, -, hu, hv, rfl⟩ | ⟨v, f, -, rfl⟩ | ⟨e, f, -, rfl⟩ := change_cases hc
  · exact hg.addVertex x
  · exact hg.addEdge hu hv x
  · exact hg.writeVertex v f
  · exact hg.writeEdge e f

end Consistent

end Multigraph

end GraphViews.Graph
