import GraphViews.Proofs.Record.Loading
import GraphViews.Record.Snapshot

/-!
# Views as queries on rows

Under a layer whose tests go by the rows, a graph that holds rows shows a selection of them: the vertex rows that
are kept, and the edge rows that are kept with both of their ends.
-/

namespace GraphViews.Record

open GraphViews.Graph Fallible

/-- Whether a row with the given id is kept. -/
def keepsId (p : VertexRow → Bool) (V : List VertexRow) (vid : Int64) : Bool :=
  V.any fun r => r.vid = vid && p r

/-- The rows that are kept, in their order. -/
def select (p : VertexRow → Bool) (q : EdgeRow → Bool) (V : List VertexRow) (E : List EdgeRow) :
    Snapshot :=
  ⟨V.filter p, E.filter fun r => q r && (keepsId p V r.src && keepsId p V r.dst)⟩

def tally (s : Snapshot) (V : List VertexRow) (E : List EdgeRow) : Summary :=
  ⟨V.length, E.length, s.vertices.length, s.edges.length⟩

variable {g : DataGraph} {V : List VertexRow} {E : List EdgeRow} {p : VertexRow → Bool}
  {q : EdgeRow → Bool}

private theorem eq_of_vid_eq (hV : (V.map VertexRow.vid).Nodup) {r s : VertexRow} (hr : r ∈ V) (hs : s ∈ V)
    (h : r.vid = s.vid) : r = s := by
  obtain ⟨i, hi⟩ := List.getElem?_of_mem hr
  obtain ⟨j, hj⟩ := List.getElem?_of_mem hs
  obtain rfl := index_eq_of_vid_eq hV hi hj h
  exact Option.some.inj (hi.symm.trans hj)

/-- Where ids are distinct, an id is kept exactly when the row that has it is. -/
theorem keepsId_eq (hV : (V.map VertexRow.vid).Nodup) {s : VertexRow} (hs : s ∈ V) :
    keepsId p V s.vid = p s := by
  rw [Bool.eq_iff_iff, keepsId, List.any_eq_true]
  constructor
  · rintro ⟨r, hr, hk⟩
    simp only [Bool.and_eq_true, decide_eq_true_eq] at hk
    rw [← eq_of_vid_eq hV hr hs hk.1]
    exact hk.2
  · intro hp
    exact ⟨s, hs, by simpa using hp⟩

theorem Summary.ofView_of_counts {w : DataView} {m n : Nat} (hm : w.vertices.count = .ok m)
    (hn : w.edges.count = .ok n) : Summary.ofView w = .ok ⟨w.numVertices, w.numEdges, m, n⟩ := by
  rw [Summary.ofView, hm, ok_bind, hn]
  rfl

/-- What a snapshot lists has been counted as well, whatever tests the view makes. -/
theorem Summary.ofView_of_snapshot {w : DataView} {s : Snapshot} (h : Snapshot.ofView w = .ok s) :
    Summary.ofView w = .ok ⟨w.numVertices, w.numEdges, s.vertices.length, s.edges.length⟩ := by
  obtain ⟨vs, hvs, h⟩ := bind_eq_ok.mp h
  obtain ⟨vertices, hv, h⟩ := bind_eq_ok.mp h
  obtain ⟨es, hes, h⟩ := bind_eq_ok.mp h
  obtain ⟨edges, he, h⟩ := bind_eq_ok.mp h
  cases h
  rw [length_of_mapM hv, length_of_mapM he]
  exact Summary.ofView_of_counts (Traversal.count_of_toList hvs) (Traversal.count_of_toList hes)

/-- A graph that holds rows shows them all. -/
theorem Holds.snapshot_whole (h : Holds g V E) : Snapshot.ofView (.whole g) = .ok ⟨V, E⟩ := by
  have hv : (View.whole g).vertices.toList = .ok g.vertices := Traversal.toList_ofList g.vertices
  have he : (View.whole g).edges.toList = .ok g.edges := Traversal.toList_ofList g.edges
  have hvr : g.vertices.mapM (View.whole g).vertexProperty = .ok V := h.mapM_vertices
  rw [Snapshot.ofView, hv, ok_bind, hvr, ok_bind, he, ok_bind, h.mapM_edges]
  rfl

/-- The tests of a layer go by the rows that the graph reads as. -/
structure Reads (l : Layer) (g : DataGraph) (p : VertexRow → Bool) (q : EdgeRow → Bool) : Prop where
  vertex : ∀ v r, g.vertexProperty v = .ok r → l.vertex v = .ok (p r)
  edge : ∀ e r, edgeRow (.whole g) e = .ok r → l.edge e = .ok (q r)

namespace Holds

variable {l : Layer}

private theorem exists_vertices (h : Holds g V E) (hl : Reads l g p q) :
    ∃ vs, (View.filtered (.handle (.whole g)) l).vertices.toList = .ok vs ∧
      vs.mapM g.vertexProperty = .ok (V.filter p) := by
  simp only [View.vertices, Traversal.toList, Traversal.filter, Traversal.ofList, List.map_map]
  refine Candidate.exists_allKept h.mapM_vertices ?_
  intro v _ r hr
  change Candidate.filter l.vertex (.kept v) = _
  rw [Candidate.filter_kept, hl.vertex v r hr]

theorem onEdge_eq (h : Holds g V E) (hV : (V.map VertexRow.vid).Nodup) (hl : Reads l g p q)
    {e : Edge} (he : e ∈ g.edges) {r : EdgeRow} (hr : edgeRow (.whole g) e = .ok r) :
    l.onEdge e = .ok (q r && (keepsId p V r.src && keepsId p V r.dst)) := by
  obtain ⟨r', s, t, hr', hs, hsv, ht, htv, -⟩ := h.exists_ends he
  obtain rfl := Except.ok.inj (hr'.symm.trans hr)
  rw [← hsv, ← htv, keepsId_eq hV (List.mem_of_getElem? hs), keepsId_eq hV (List.mem_of_getElem? ht)]
  have hsrc : l.vertex e.source = .ok (p s) := hl.vertex _ s (h.vertexProperty hs)
  have htgt : l.vertex e.target = .ok (p t) := hl.vertex _ t (h.vertexProperty ht)
  exact Test.both_ok (hl.edge e r' hr) (Test.both_ok hsrc htgt)

private theorem exists_edges (h : Holds g V E) (hV : (V.map VertexRow.vid).Nodup) (hl : Reads l g p q) :
    ∃ es, (View.filtered (.handle (.whole g)) l).edges.toList = .ok es ∧
      es.mapM (edgeRow (.whole g)) = .ok (select p q V E).edges := by
  simp only [View.edges, Traversal.toList, Traversal.filter, Traversal.ofList, List.map_map]
  refine Candidate.exists_allKept h.mapM_edges ?_
  intro e he r hr
  change Candidate.filter l.onEdge (.kept e) = _
  rw [Candidate.filter_kept, h.onEdge_eq hV hl he hr]

/-- A graph that holds rows shows a selection of them under a layer that goes by rows. -/
theorem snapshot_eq (h : Holds g V E) (hV : (V.map VertexRow.vid).Nodup) (hl : Reads l g p q) :
    Snapshot.ofView (.filtered (.handle (.whole g)) l) = .ok (select p q V E) := by
  obtain ⟨vs, hvs, hvr⟩ := h.exists_vertices hl
  obtain ⟨es, hes, her⟩ := h.exists_edges hV hl
  rw [Snapshot.ofView, hvs, ok_bind, hes]
  change (vs.mapM g.vertexProperty >>= fun _ => es.mapM (edgeRow (.whole g)) >>= _) = _
  rw [hvr, ok_bind, her]
  rfl

theorem summary_eq (h : Holds g V E) (hV : (V.map VertexRow.vid).Nodup) (hl : Reads l g p q) :
    Summary.ofView (.filtered (.handle (.whole g)) l) = .ok (tally (select p q V E) V E) := by
  rw [Summary.ofView_of_snapshot (h.snapshot_eq hV hl), tally, ← h.numVertices_eq, ← h.numEdges_eq]
  rfl

end Holds

end GraphViews.Record
