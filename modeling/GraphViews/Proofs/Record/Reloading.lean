import GraphViews.Proofs.Graph.Enumeration
import GraphViews.Proofs.Record.Refusal

/-!
# Snapshots as rows

What a view shows of a graph of rows is again rows of a graph: ids stay distinct, and an edge is shown only
with both of its ends. So a snapshot can be loaded, and the graph shows nothing else.
-/

namespace GraphViews.Record

open GraphViews.Graph Fallible

variable {g : DataGraph} {V : List VertexRow} {E : List EdgeRow}

theorem Holds.exists_snapshot_stack (h : Holds g V E) (ls : List Level) :
    ∃ s, Snapshot.ofView ((View.whole g).stack ls) = .ok s := by
  obtain ⟨vertices, hv, -⟩ :=
    exists_mapM_sublist h.mapM_vertices (List.filter_sublist (p := keepsVertex ls))
  obtain ⟨edges, he, -⟩ :=
    exists_mapM_sublist h.mapM_edges (List.filter_sublist (p := showsEdge ls))
  refine ⟨⟨vertices, edges⟩, ?_⟩
  rw [Snapshot.ofView, View.toList_vertices_stack, ok_bind, View.vertexProperty_eq, View.base_stack, hv, ok_bind,
    View.toList_edges_stack, ok_bind, edgeRow_eq, View.base_stack, he]
  rfl

/-- A snapshot has some of the rows in their order, and with each edge row those of its ends. -/
theorem Holds.snapshot_closed {w : DataView} (h : Holds w.base V E) {s : Snapshot}
    (hs : Snapshot.ofView w = .ok s) :
    s.vertices.Sublist V ∧ s.edges.Sublist E ∧ ∀ r ∈ s.edges, r.Joins s.vertices := by
  obtain ⟨vs, hvs, hs⟩ := bind_eq_ok.mp hs
  obtain ⟨vertices, hv, hs⟩ := bind_eq_ok.mp hs
  obtain ⟨es, hes, hs⟩ := bind_eq_ok.mp hs
  obtain ⟨edges, he, hs⟩ := bind_eq_ok.mp hs
  cases hs
  rw [View.vertexProperty_eq] at hv
  rw [edgeRow_eq] at he
  obtain ⟨hvbase, hebase, hends⟩ := View.lists_closed h.consistent hvs hes
  obtain ⟨vertices', hv', hvsub⟩ := exists_mapM_sublist h.mapM_vertices hvbase
  obtain ⟨edges', he', hesub⟩ := exists_mapM_sublist h.mapM_edges hebase
  obtain rfl := Except.ok.inj (hv'.symm.trans hv)
  obtain rfl := Except.ok.inj (he'.symm.trans he)
  have hshown {v : Vertex} {r : VertexRow} (hmem : v ∈ vs) (hr : V[v.index]? = some r) :
      r.vid ∈ vertices'.map VertexRow.vid := by
    obtain ⟨r', hr', hrow⟩ := mem_of_mapM hv hmem
    obtain rfl := Except.ok.inj ((h.vertexProperty hr).symm.trans hrow)
    exact List.mem_map_of_mem hr'
  refine ⟨hvsub, hesub, ?_⟩
  intro r hr
  obtain ⟨e, hmem, hrow⟩ := exists_mem_of_mapM he hr
  obtain ⟨r', s, t, hrow', hs, hsv, ht, htv, -⟩ := h.exists_ends (hebase.subset hmem)
  obtain rfl := Except.ok.inj (hrow'.symm.trans hrow)
  obtain ⟨hsrc, htgt⟩ := hends e hmem
  refine ⟨?_, ?_⟩
  · rw [← hsv]
    exact hshown hsrc hs
  · rw [← htv]
    exact hshown htgt ht

/-- Any stack of layers over a loaded graph has a snapshot, as long as the tests answer. The snapshot of a view of the
graph can be loaded itself, with or without directions. The new graph has the same snapshot, and holds as much as
it shows: what the view has shown. -/
theorem snapshot_reloads {directed : Bool} (h : load directed V E = .ok g) :
    (∀ ls : List Level, ∃ s, Snapshot.ofView ((View.whole g).stack ls) = .ok s) ∧
    ∀ (w : DataView) (s : Snapshot), w.base = g → Snapshot.ofView w = .ok s →
      ∃ t, Summary.ofView w = .ok t ∧ ∀ directed' : Bool,
        ∃ g', load directed' s.vertices s.edges = .ok g' ∧ g'.directed = directed' ∧
          Snapshot.ofView (.whole g') = .ok s ∧
          Summary.ofView (.whole g') =
            .ok ⟨t.visibleVertices, t.visibleEdges, t.visibleVertices, t.visibleEdges⟩ := by
  obtain ⟨hg, hV, -⟩ := load_ok h
  refine ⟨hg.exists_snapshot_stack, ?_⟩
  rintro w s rfl hs
  obtain ⟨hvsub, -, hjoins⟩ := hg.snapshot_closed hs
  have hdistinct : (s.vertices.map VertexRow.vid).Nodup := hV.sublist (hvsub.map VertexRow.vid)
  refine ⟨_, Summary.ofView_of_snapshot hs, ?_⟩
  intro directed'
  obtain ⟨g', hg'⟩ : ∃ g', load directed' s.vertices s.edges = .ok g' :=
    exists_load_iff.mpr ⟨hdistinct, hjoins⟩
  obtain ⟨hheld, -, hd⟩ := load_ok hg'
  have hs' := hheld.snapshot_whole
  have hv : (View.whole g').numVertices = s.vertices.length := hheld.numVertices_eq
  have he : (View.whole g').numEdges = s.edges.length := hheld.numEdges_eq
  refine ⟨g', hg', hd, hs', ?_⟩
  rw [Summary.ofView_of_snapshot hs', hv, he]

/-- A view of an undirected graph that hides a vertex under a handle, with the loop at it, and an edge by its
orientation, reloaded with directions. -/
theorem snapshot_reloads_oriented :
    let V : List VertexRow := [⟨4, 0⟩, ⟨9, 0⟩, ⟨-1, 0⟩]
    let E : List EdgeRow := [⟨4, 9, 0, 0⟩, ⟨9, 4, 1, 0⟩, ⟨-1, -1, 2, 0⟩, ⟨9, -1, 3, 0⟩]
    let ls : List Level := [.layer (fun e => e.source.index < e.target.index) fun _ => true, .handle,
      .layer (fun _ => true) fun v => v.index < 2]
    ∃ g g', load false V E = .ok g ∧
      Snapshot.ofView ((View.whole g).stack ls) = .ok ⟨[⟨4, 0⟩, ⟨9, 0⟩], [⟨4, 9, 0, 0⟩]⟩ ∧
      load true [⟨4, 0⟩, ⟨9, 0⟩] [⟨4, 9, 0, 0⟩] = .ok g' ∧
      Summary.ofView (.whole g') = .ok ⟨2, 1, 2, 1⟩ := by
  intro V E ls
  obtain ⟨g, hg⟩ : ∃ g, load false V E = .ok g := exists_ok (by decide +kernel)
  obtain ⟨hstack, hview⟩ := snapshot_reloads hg
  obtain ⟨s, hs⟩ := hstack ls
  obtain ⟨t, ht, hload⟩ := hview _ s (View.base_stack g ls) hs
  obtain ⟨g', hl, -, -, hsum⟩ := hload true
  have hsnap : (load false V E).toOption.bind
      (fun g => (Snapshot.ofView ((View.whole g).stack ls)).toOption) =
        some ⟨[⟨4, 0⟩, ⟨9, 0⟩], [⟨4, 9, 0, 0⟩]⟩ := by decide +kernel
  have hcount : (load false V E).toOption.bind
      (fun g => (Summary.ofView ((View.whole g).stack ls)).toOption) = some ⟨3, 4, 2, 1⟩ := by
    decide +kernel
  simp only [hg, hs, ht, Except.toOption, Option.bind_some, Option.some.injEq] at hsnap hcount
  subst hsnap
  subst hcount
  exact ⟨g, g', hg, hs, hl, hsum⟩

end GraphViews.Record
