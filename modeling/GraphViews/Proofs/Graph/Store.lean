import GraphViews.Proofs.Graph.Calls

/-!
# The values at the descriptors

A descriptor keeps to what it was handed out for, whatever calls follow, and the value there is the one that was written
last.
-/

namespace GraphViews.Graph

variable {V E : Type}

namespace Call

def vertexAfter (v : Vertex) (x : V) : Call V E → V
  | writeVertex _ u f => if u = v then f x else x
  | _ => x

/-- The value at the edge that is stored as `e` after a call, if it was `x` before. -/
def edgeAfter (directed : Bool) (e : Edge) (x : E) : Call V E → E
  | writeEdge _ e' f => if e'.Names directed e then f x else x
  | _ => x

end Call

/-- What the calls have written at `v`, where it was `x` at first. -/
def lastAtVertex (v : Vertex) (x : V) (cs : List (Call V E)) : V := cs.foldl (Call.vertexAfter v) x

def lastAtEdge (directed : Bool) (e : Edge) (x : E) (cs : List (Call V E)) : E :=
  cs.foldl (Call.edgeAfter directed e) x

namespace Multigraph

/-- The vertex at the place of `v` is `v`, and its value is `x`, however it is reached. -/
structure HoldsVertex (g : Multigraph V E) (v : Vertex) (x : V) : Prop where
  place : g.vertices[v.index]? = some v
  read : ∀ w : View V E, w.base = g → w.vertexProperty v = .ok x
  put : ∀ (w : View V E) (y : V), (g.perform (.putVertex w v y)).1 = .ok (.vertexWas x)

structure HoldsEdge (g : Multigraph V E) (e : Edge) (x : E) : Prop where
  place : g.edges[e.index]? = some e
  read : ∀ (w : View V E) (e' : Edge), w.base = g → e'.Names g.directed e → w.edgeProperty e' = .ok x
  put : ∀ (w : View V E) (e' : Edge) (y : E), e'.Names g.directed e →
    (g.perform (.putEdge w e' y)).1 = .ok (.edgeWas x)

theorem holdsVertex_iff {g : Multigraph V E} {v : Vertex} {x : V} :
    g.HoldsVertex v x ↔ g.nodes[v.index]?.map Node.property = some x := by
  constructor
  · intro h
    have hread : g.vertexProperty v = .ok x := h.read (.whole g) rfl
    obtain ⟨n, hn, hx⟩ := Fallible.bind_eq_ok.mp hread
    rw [node_eq_ok.mp hn, Option.map_some, Except.ok.inj hx]
  · intro h
    obtain ⟨n, hn, rfl⟩ := Option.map_eq_some_iff.mp h
    obtain ⟨hv, -⟩ := Array.getElem?_eq_some_iff.mp hn
    refine ⟨?_, ?_, ?_⟩
    · simp [vertices, hv]
    · rintro w rfl
      rw [View.vertexProperty_eq, vertexProperty, node_eq_ok.mpr hn]
      rfl
    · intro w y
      rw [perform_putVertex, putVertex, modifyVertex, node_eq_ok.mpr hn]
      rfl

theorem link_of_names {g : Multigraph V E} {e₀ e : Edge} {x : E}
    (h : g.links[e₀.index]? = some ⟨e₀.source, e₀.target, x⟩) (he : e.Names g.directed e₀) :
    g.link e = .ok ⟨e₀.source, e₀.target, x⟩ := by
  rw [link_eq_ok, he.index_eq]
  exact ⟨h, he⟩

theorem holdsEdge_iff {g : Multigraph V E} {e : Edge} {x : E} :
    g.HoldsEdge e x ↔ g.links[e.index]? = some ⟨e.source, e.target, x⟩ := by
  constructor
  · intro h
    have hread : g.edgeProperty e = .ok x := h.read (.whole g) e rfl (.inl rfl)
    obtain ⟨l, hl, hx⟩ := Fallible.bind_eq_ok.mp hread
    obtain ⟨hl, -⟩ := link_eq_ok.mp hl
    obtain ⟨l', hl', hs, ht⟩ := mem_edges.mp (List.mem_of_getElem? h.place)
    obtain rfl := Option.some.inj (hl.symm.trans hl')
    rw [hl, ← hs, ← ht, ← Except.ok.inj hx]
  · intro h
    refine ⟨?_, ?_, ?_⟩
    · simp [edges, h, Link.edge]
    · rintro w e' rfl he'
      rw [View.edgeProperty_eq, edgeProperty, link_of_names h he']
      rfl
    · intro w e' y he'
      rw [perform_putEdge, putEdge, modifyEdge, link_of_names h he']
      rfl

/-- What does not name the edge that is written is found, or refused, as before. -/
theorem HoldsEdge.link_write {g : Multigraph V E} {e₀ e e' : Edge} {x : E} (h : g.HoldsEdge e₀ x)
    (he : e.Names g.directed e₀) (he' : ¬e'.Names g.directed e₀) (f : E → E) :
    ({ g with links := g.links.modify e.index fun l => { l with property := f l.property } } :
      Multigraph V E).link e' = g.link e' := by
  rw [link, link, Array.getElem?_modify]
  by_cases hi : e.index = e'.index
  · have hi' : e'.index = e₀.index := hi.symm.trans he.index_eq
    have hj (y : E) : ¬(Link.mk e₀.source e₀.target y).joins g.directed e' = true := by
      rw [joins_iff, hi']
      exact he'
    rw [if_pos hi, hi', holdsEdge_iff.mp h, Option.map_some]
    simp only [if_neg (hj _)]
  · rw [if_neg hi]

theorem exists_holdsVertex {g : Multigraph V E} {v : Vertex} (hv : v.index < g.numVertices) :
    ∃ x, g.HoldsVertex v x :=
  ⟨_, holdsVertex_iff.mpr (by rw [Array.getElem?_eq_getElem hv]; rfl)⟩

theorem exists_holdsEdge {g : Multigraph V E} {e : Edge} (he : e ∈ g.edges) : ∃ x, g.HoldsEdge e x := by
  obtain ⟨l, hl, hs, ht⟩ := mem_edges.mp he
  refine ⟨l.property, holdsEdge_iff.mpr ?_⟩
  rw [hl, ← hs, ← ht]

theorem HoldsVertex.lt {g : Multigraph V E} {v : Vertex} {x : V} (h : g.HoldsVertex v x) :
    v.index < g.numVertices :=
  mem_vertices.mp (List.mem_of_getElem? h.place)

private theorem property_enlist (g : Multigraph V E) (u v : Vertex) (i k : Nat) :
    (g.enlist u v i)[k]?.map Node.property = g.nodes[k]?.map Node.property := by
  cases hd : g.directed with
  | true =>
    rw [getElem?_enlist_directed hd, Option.map_map]
    rfl
  | false =>
    rw [getElem?_enlist_undirected hd, Option.map_map]
    rfl

theorem HoldsVertex.perform {g : Multigraph V E} {v : Vertex} {x : V} (h : g.HoldsVertex v x) (c : Call V E) :
    (g.perform c).2.HoldsVertex v (c.vertexAfter v x) := by
  have hlt := h.lt
  rw [holdsVertex_iff] at h ⊢
  by_cases hc : g.Allows c
  · cases c with
    | addVertex y =>
      have hne : v.index ≠ g.nodes.size := Nat.ne_of_lt hlt
      rw [perform_addVertex, Array.getElem?_push, if_neg hne]
      exact h
    | addEdge s t y =>
      rw [perform_addEdge hc.1 hc.2, property_enlist]
      exact h
    | writeVertex w u f =>
      obtain ⟨n, hn⟩ := exists_node hc
      rw [perform_writeVertex (node_eq_ok.mp hn), Array.getElem?_modify, Call.vertexAfter]
      by_cases huv : u = v
      · obtain ⟨n', hn', rfl⟩ := Option.map_eq_some_iff.mp h
        rw [if_pos huv, if_pos (congrArg Vertex.index huv), hn']
        rfl
      · rw [if_neg huv, if_neg fun hi => huv (Vertex.eq_iff.mpr hi)]
        exact h
    | writeEdge w e f =>
      obtain ⟨l, hl⟩ := exists_link_iff.mpr hc
      rw [perform_writeEdge hl]
      exact h
  · obtain ⟨f, hf⟩ := perform_refused hc
    rw [hf]
    cases c with
    | writeVertex w u f' =>
      have hne : u ≠ v := fun huv => hc (huv ▸ hlt)
      rw [Call.vertexAfter, if_neg hne]
      exact h
    | _ => exact h

theorem HoldsEdge.perform {g : Multigraph V E} {e : Edge} {x : E} (h : g.HoldsEdge e x) (c : Call V E) :
    (g.perform c).2.HoldsEdge e (c.edgeAfter g.directed e x) := by
  have hmem : e ∈ g.edges := List.mem_of_getElem? h.place
  rw [holdsEdge_iff] at h ⊢
  by_cases hc : g.Allows c
  · cases c with
    | addVertex y =>
      rw [perform_addVertex]
      exact h
    | addEdge s t y =>
      obtain ⟨hlt, -⟩ := Array.getElem?_eq_some_iff.mp h
      rw [perform_addEdge hc.1 hc.2, Array.getElem?_push, if_neg (Nat.ne_of_lt hlt)]
      exact h
    | writeVertex w v f =>
      obtain ⟨n, hn⟩ := exists_node hc
      rw [perform_writeVertex (node_eq_ok.mp hn)]
      exact h
    | writeEdge w e' f =>
      obtain ⟨l, hl⟩ := exists_link_iff.mpr hc
      rw [perform_writeEdge hl, Array.getElem?_modify, Call.edgeAfter]
      by_cases hi : e'.index = e.index
      · -- A call that is allowed names the edge at its place, which is this one.
        obtain ⟨hl, hnames⟩ := link_eq_ok.mp hl
        rw [hi, h] at hl
        obtain rfl := Option.some.inj hl
        rw [hi] at hnames
        replace hnames : e'.Names g.directed e := hnames
        rw [if_pos hi, if_pos hnames, h]
        rfl
      · rw [if_neg hi, if_neg fun hnames => hi hnames.index_eq]
        exact h
  · obtain ⟨f, hf⟩ := perform_refused hc
    rw [hf]
    cases c with
    | writeEdge w e' f' =>
      have hne : ¬e'.Names g.directed e := fun he => hc ⟨e, hmem, he⟩
      rw [Call.edgeAfter, if_neg hne]
      exact h
    | _ => exact h

theorem HoldsVertex.run {g : Multigraph V E} {v : Vertex} {x : V} (h : g.HoldsVertex v x)
    (cs : List (Call V E)) : (g.run cs).HoldsVertex v (lastAtVertex v x cs) := by
  induction cs generalizing g x with
  | nil => exact h
  | cons c cs ih => exact ih (h.perform c)

theorem directed_run (g : Multigraph V E) (cs : List (Call V E)) : (g.run cs).directed = g.directed := by
  rw [run_eq_after]
  exact directed_after g _

theorem HoldsEdge.run {g : Multigraph V E} {e : Edge} {x : E} (h : g.HoldsEdge e x)
    (cs : List (Call V E)) : (g.run cs).HoldsEdge e (lastAtEdge g.directed e x cs) := by
  induction cs generalizing g x with
  | nil => exact h
  | cons c cs ih =>
    have hcs := ih (h.perform c)
    rwa [show (g.perform c).2.directed = g.directed from directed_run g [c]] at hcs

end Multigraph

end GraphViews.Graph
