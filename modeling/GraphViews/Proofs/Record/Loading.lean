import GraphViews.Proofs.Graph.Incidence
import GraphViews.Record.Loader

/-!
# Graphs that hold rows

A graph that is loaded from rows holds them: its vertices carry the vertex rows and its links read as the edge
rows, both in order and at their places.
-/

namespace GraphViews.Record

open GraphViews.Tables GraphViews.Graph Fallible

/-- What a link reads as between vertices that carry the rows of `V`. -/
def linkRow (V : List VertexRow) (l : Link EdgeData) : Option EdgeRow := do
  let s ← V[l.source.index]?
  let t ← V[l.target.index]?
  return ⟨s.vid, t.vid, l.property.elabel, l.property.capacity⟩

/-- The rows are those of the graph, each at its place. -/
structure Holds (g : DataGraph) (V : List VertexRow) (E : List EdgeRow) : Prop where
  consistent : g.Consistent
  vertices : g.nodes.toList.map Node.property = V
  edges : g.links.toList.map (linkRow V) = E.map some

/-- An id leads to a vertex exactly when the row of that vertex has it. -/
def Leads (places : Std.TreeMap Int64 Vertex) (V : List VertexRow) : Prop :=
  ∀ (vid : Int64) (v : Vertex), places[vid]? = some v ↔ ∃ r, V[v.index]? = some r ∧ r.vid = vid

variable {g : DataGraph} {V : List VertexRow} {E : List EdgeRow}

theorem placeVertex_ok {p q : Placed} {r : VertexRow} (h : placeVertex p r = .ok q) :
    p.places[r.vid]? = none ∧
      q = ⟨(p.graph.addVertex r).2, p.places.insert r.vid ⟨p.graph.numVertices⟩⟩ := by
  unfold placeVertex at h
  split at h
  · cases h
  · rename_i hc
    cases h
    rw [Std.TreeMap.contains_eq_isSome_getElem?] at hc
    exact ⟨by simpa using hc, rfl⟩

theorem Holds.numVertices_eq (h : Holds g V E) : g.numVertices = V.length := by
  rw [← h.vertices, List.length_map, Array.length_toList]
  rfl

theorem Holds.numEdges_eq (h : Holds g V E) : g.numEdges = E.length := by
  have hlen := congrArg List.length h.edges
  rwa [List.length_map, List.length_map, Array.length_toList] at hlen

theorem Holds.addVertex (h : Holds g V []) (r : VertexRow) :
    Holds (g.addVertex r).2 (V ++ [r]) [] where
  consistent := h.consistent.addVertex r
  vertices := by simp [Multigraph.addVertex, h.vertices]
  edges := by
    have hl : g.links.toList = [] := List.map_eq_nil_iff.mp h.edges
    simp [Multigraph.addVertex, hl]

theorem Leads.insert {places : Std.TreeMap Int64 Vertex} (h : Leads places V) {r : VertexRow}
    (hr : places[r.vid]? = none) :
    Leads (places.insert r.vid ⟨V.length⟩) (V ++ [r]) := by
  rintro vid ⟨i⟩
  have hcat (s : VertexRow) :
      (V ++ [r])[i]? = some s ↔ V[i]? = some s ∨ i = V.length ∧ s = r := by
    grind
  have hp := h vid ⟨i⟩
  simp only [hcat]
  by_cases hv : r.vid = vid
  · subst hv
    rw [Std.TreeMap.getElem?_insert_self]
    rw [hr] at hp
    constructor
    · intro hi
      cases hi
      exact ⟨r, .inr ⟨rfl, rfl⟩, rfl⟩
    · rintro ⟨s, hs | ⟨rfl, rfl⟩, hvid⟩
      · exact absurd (hp.mpr ⟨s, hs, hvid⟩) (by simp)
      · rfl
  · have hins : (places.insert r.vid ⟨V.length⟩)[vid]? = places[vid]? := by
      rw [Std.TreeMap.getElem?_insert, if_neg (by simpa using hv)]
    rw [hins, hp]
    constructor
    · rintro ⟨s, hs, hvid⟩
      exact ⟨s, .inl hs, hvid⟩
    · rintro ⟨s, hs | ⟨-, rfl⟩, hvid⟩
      · exact ⟨s, hs, hvid⟩
      · exact absurd hvid hv

theorem Leads.nodup {places : Std.TreeMap Int64 Vertex} (h : Leads places V) :
    (V.map VertexRow.vid).Nodup := by
  refine List.pairwise_iff_getElem.mpr ?_
  intro i j hi hj hij heq
  rw [List.length_map] at hi hj
  simp only [List.getElem_map] at heq
  have hvi := (h V[i].vid ⟨i⟩).mpr ⟨V[i], List.getElem?_eq_getElem hi, rfl⟩
  have hvj := (h V[i].vid ⟨j⟩).mpr ⟨V[j], List.getElem?_eq_getElem hj, heq.symm⟩
  rw [hvi] at hvj
  simp at hvj
  omega

theorem placeVertices_ok {directed : Bool} {p : Placed} (h : placeVertices directed V = .ok p) :
    Holds p.graph V [] ∧ Leads p.places V ∧ p.graph.directed = directed := by
  refine foldlM_induction
    (P := fun p V => Holds p.graph V [] ∧ Leads p.places V ∧ p.graph.directed = directed) ?_ ?_ h
  · refine ⟨⟨.empty directed, rfl, rfl⟩, ?_, rfl⟩
    intro vid v
    simp
  · rintro p W r q ⟨hp, hl, hd⟩ hq
    obtain ⟨hr, rfl⟩ := placeVertex_ok hq
    rw [hp.numVertices_eq]
    exact ⟨hp.addVertex r, hl.insert hr, hd⟩

theorem endpoint_ok {places : Std.TreeMap Int64 Vertex} (hl : Leads places V) {r : EdgeRow}
    {vid : Int64} {v : Vertex} (h : endpoint places r vid = .ok v) :
    ∃ s, V[v.index]? = some s ∧ s.vid = vid := by
  unfold endpoint at h
  split at h
  · rename_i u hu
    cases h
    exact (hl vid _).mp hu
  · cases h

theorem placeEdge_ok {places : Std.TreeMap Int64 Vertex} {g' : DataGraph} {r : EdgeRow}
    (h : placeEdge places g r = .ok g') :
    ∃ u v e, endpoint places r r.src = .ok u ∧ endpoint places r r.dst = .ok v ∧
      g.addEdge u v r.data = .ok (e, g') := by
  obtain ⟨u, hu, h⟩ := bind_eq_ok.mp h
  obtain ⟨v, hv, h⟩ := bind_eq_ok.mp h
  split at h
  · rename_i e g'' ha
    cases h
    exact ⟨u, v, e, hu, hv, ha⟩
  · cases h

private theorem enlist_map_property (u v : Vertex) (i : Nat) :
    (g.enlist u v i).toList.map Node.property = g.nodes.toList.map Node.property := by
  apply List.ext_getElem
  · simp [Multigraph.size_enlist]
  · intro k hk hk'
    rw [List.length_map, Array.length_toList] at hk
    obtain ⟨n, hn, hp, -⟩ := Multigraph.getElem?_enlist (w := ⟨k⟩) (Array.getElem?_eq_getElem hk)
    obtain ⟨_, rfl⟩ := Array.getElem?_eq_some_iff.mp hn
    simpa using hp

theorem Holds.addEdge (h : Holds g V E) {u v : Vertex} {r : EdgeRow} {s t : VertexRow}
    (hs : V[u.index]? = some s) (hsv : s.vid = r.src) (ht : V[v.index]? = some t)
    (htv : t.vid = r.dst) :
    Holds { g with nodes := g.enlist u v g.numEdges, links := g.links.push ⟨u, v, r.data⟩ }
      V (E ++ [r]) where
  consistent := by
    have hu := (List.getElem?_eq_some_iff.mp hs).1
    have hv := (List.getElem?_eq_some_iff.mp ht).1
    rw [← h.numVertices_eq] at hu hv
    exact h.consistent.addEdge hu hv r.data
  vertices := (enlist_map_property u v g.numEdges).trans h.vertices
  edges := by
    simp [h.edges, linkRow, hs, ht, hsv, htv, EdgeRow.data]

/-- The edges that are placed are held, and the ends of each are known. -/
theorem placeEdges_ok {p : Placed} (hp : Holds p.graph V []) (hl : Leads p.places V)
    (h : placeEdges p E = .ok g) :
    Holds g V E ∧ g.directed = p.graph.directed ∧
      ∀ r ∈ E, r.src ∈ V.map VertexRow.vid ∧ r.dst ∈ V.map VertexRow.vid := by
  refine foldlM_induction (P := fun g E => Holds g V E ∧ g.directed = p.graph.directed ∧
    ∀ r ∈ E, r.src ∈ V.map VertexRow.vid ∧ r.dst ∈ V.map VertexRow.vid) ⟨hp, rfl, nofun⟩ ?_ h
  rintro g E r g' ⟨hg, hd, hk⟩ hr
  obtain ⟨u, v, e, hu, hv, ha⟩ := placeEdge_ok hr
  obtain ⟨s, hs, hsv⟩ := endpoint_ok hl hu
  obtain ⟨t, ht, htv⟩ := endpoint_ok hl hv
  obtain ⟨-, -, -, rfl⟩ := Multigraph.addEdge_ok ha
  refine ⟨hg.addEdge hs hsv ht htv, hd, ?_⟩
  have hsrc : r.src ∈ V.map VertexRow.vid := hsv ▸ List.mem_map_of_mem (List.mem_of_getElem? hs)
  have hdst : r.dst ∈ V.map VertexRow.vid := htv ▸ List.mem_map_of_mem (List.mem_of_getElem? ht)
  intro r' hr'
  rcases List.mem_append.mp hr' with hr' | hr'
  · exact hk r' hr'
  · obtain rfl := List.mem_singleton.mp hr'
    exact ⟨hsrc, hdst⟩

/-- What is loaded holds the rows it was loaded from, and no id occurs twice in them. -/
theorem load_ok {directed : Bool} (h : load directed V E = .ok g) :
    Holds g V E ∧ (V.map VertexRow.vid).Nodup ∧ g.directed = directed := by
  obtain ⟨p, hp, he⟩ := bind_eq_ok.mp h
  obtain ⟨hh, hl, rfl⟩ := placeVertices_ok hp
  obtain ⟨hg, hd, -⟩ := placeEdges_ok hh hl he
  exact ⟨hg, hl.nodup, hd⟩

/-- Where ids are distinct, each has its own place. -/
theorem index_eq_of_vid_eq (hV : (V.map VertexRow.vid).Nodup) {i j : Nat} {r s : VertexRow}
    (hr : V[i]? = some r) (hs : V[j]? = some s) (h : r.vid = s.vid) : i = j := by
  obtain ⟨hi, rfl⟩ := List.getElem?_eq_some_iff.mp hr
  obtain ⟨hj, rfl⟩ := List.getElem?_eq_some_iff.mp hs
  have hi' : i < (V.map VertexRow.vid).length := by simpa using hi
  have hj' : j < (V.map VertexRow.vid).length := by simpa using hj
  have hvid : (V.map VertexRow.vid)[i] = (V.map VertexRow.vid)[j] := by
    rw [List.getElem_map, List.getElem_map, h]
  exact (List.getElem_inj hV).mp hvid

theorem edgeRow_eq (w : DataView) : edgeRow w = edgeRow (.whole w.base) := by
  funext e
  simp [edgeRow, View.base]

namespace Holds

theorem vertices_eq (h : Holds g V E) : g.vertices = (List.range V.length).map Vertex.mk := by
  rw [← h.numVertices_eq]
  rfl

/-- A value that is not there is asked for in the same way whatever the graph is. -/
theorem vertexProperty_eq (h : Holds g V E) (v : Vertex) :
    g.vertexProperty v = match V[v.index]? with
      | some r => .ok r
      | none => .error (.foreignVertex v.index) := by
  rw [← h.vertices, List.getElem?_map, Array.getElem?_toList, Multigraph.vertexProperty, Multigraph.node]
  cases g.nodes[v.index]? <;> rfl

theorem vertexProperty_iff (h : Holds g V E) {v : Vertex} {r : VertexRow} :
    g.vertexProperty v = .ok r ↔ V[v.index]? = some r := by
  rw [h.vertexProperty_eq]
  cases V[v.index]? <;> simp

theorem vertexProperty (h : Holds g V E) {v : Vertex} {r : VertexRow} (hr : V[v.index]? = some r) :
    g.vertexProperty v = .ok r :=
  h.vertexProperty_iff.mpr hr

theorem mapM_vertices (h : Holds g V E) : g.vertices.mapM g.vertexProperty = .ok V := by
  refine mapM_eq_ok_of_getElem ?_ ?_
  · simp [h.vertices_eq]
  · intro i hx hy
    refine h.vertexProperty ?_
    simp [h.vertices_eq]

/-- The row of an edge has the ids of the rows at its ends. -/
theorem exists_ends (h : Holds g V E) {e : Edge} (he : e ∈ g.edges) :
    ∃ r s t, edgeRow (.whole g) e = .ok r ∧ V[e.source.index]? = some s ∧ s.vid = r.src ∧
      V[e.target.index]? = some t ∧ t.vid = r.dst ∧ E[e.index]? = some r := by
  obtain ⟨l, hl, hls, hlt⟩ := Multigraph.mem_edges.mp he
  have hrow : (E.map some)[e.index]? = some (linkRow V l) := by
    rw [← h.edges, List.getElem?_map, Array.getElem?_toList, hl]
    rfl
  rw [List.getElem?_map, Option.map_eq_some_iff] at hrow
  obtain ⟨r, hr, hrl⟩ := hrow
  simp only [linkRow, Option.bind_eq_bind] at hrl
  obtain ⟨s, hs, hrl⟩ := Option.bind_eq_some_iff.mp hrl.symm
  obtain ⟨t, ht, hrl⟩ := Option.bind_eq_some_iff.mp hrl
  obtain rfl := Option.some.inj hrl
  rw [hls] at hs
  rw [hlt] at ht
  have hlink : g.link e = .ok l := by
    simp [Multigraph.link, hl, Link.joins, hls, hlt]
  refine ⟨_, s, t, ?_, hs, rfl, ht, rfl, hr⟩
  simp [edgeRow, View.base, Multigraph.edgeProperty, hlink, h.vertexProperty hs, h.vertexProperty ht]

theorem mapM_edges (h : Holds g V E) : g.edges.mapM (edgeRow (.whole g)) = .ok E := by
  have hlen : g.edges.length = E.length := g.length_edges.trans h.numEdges_eq
  refine mapM_eq_ok_of_getElem hlen ?_
  intro i hx hy
  obtain ⟨r, s, t, hr, -, -, -, -, hE⟩ := h.exists_ends (List.getElem_mem hx)
  have hi : g.edges[i].index = i := Multigraph.index_of_getElem? (List.getElem?_eq_getElem hx)
  rw [hi, List.getElem?_eq_getElem hy] at hE
  rw [hr, Option.some.inj hE]

end Holds

end GraphViews.Record
