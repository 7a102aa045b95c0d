import GraphViews.Proofs.Graph.Stack

/-!
# Incidence and enumeration of a view

The enumeration of a view tests both ends of an edge as it is stored. The list at a vertex tests only the far end,
of an edge that may be turned. At a vertex that is shown both keep the same edges.
-/

namespace GraphViews.Graph

variable {V E : Type}

def showsEdge (ls : List Level) (e : Edge) : Bool :=
  keepsEdge ls e && (keepsVertex ls e.source && keepsVertex ls e.target)

/-- No layer tells an edge of the graph from the same edge the other way round. -/
def Unoriented (g : Multigraph V E) (ls : List Level) : Prop :=
  ∀ l ∈ ls, ∀ e ∈ g.edges, l.keepsEdge e.reversed = l.keepsEdge e

theorem Unoriented.keepsEdge_reversed {g : Multigraph V E} {ls : List Level} (h : Unoriented g ls)
    {e : Edge} (he : e ∈ g.edges) : keepsEdge ls e.reversed = keepsEdge ls e := by
  induction ls with
  | nil => rfl
  | cons l ls ih =>
    have hls : Unoriented g ls := fun m hm => h m (List.mem_cons_of_mem l hm)
    rw [keepsEdge_cons, keepsEdge_cons, h l List.mem_cons_self e he, ih hls]

/-- The test of the far end, after turning, is that of both ends, because the vertex itself is shown. -/
theorem keeps_turned {ls : List Level} {e : Edge} {directed : Bool} {v : Vertex} {d : Direction}
    (hv : keepsVertex ls v = true) (he : e.heldAt directed v d = true)
    (hr : directed = false → keepsEdge ls e.reversed = keepsEdge ls e) :
    (keepsEdge ls (e.turned v d) && keepsVertex ls ((e.turned v d).far d)) = showsEdge ls e := by
  unfold showsEdge
  by_cases ha : e.anchor d = v
  · have ht : e.turned v d = e := by simp [Edge.turned, ha]
    rw [ht]
    cases d with
    | outgoing =>
      have hs : keepsVertex ls e.source = true := by rwa [← ha] at hv
      simp [Edge.far, hs]
    | incoming =>
      have hs : keepsVertex ls e.target = true := by rwa [← ha] at hv
      simp [Edge.far, hs]
  · -- An edge that is not held by its own end is one of an undirected graph, held by the other end.
    have hd : directed = false := by
      cases directed with
      | false => rfl
      | true => exact absurd (by simpa [Edge.heldAt] using he) ha
    have ht : e.turned v d = e.reversed := by simp [Edge.turned, ha]
    rw [ht, hr hd]
    subst hd
    cases d with
    | outgoing =>
      have hs : e.target = v := by simpa [Edge.heldAt, show e.source ≠ v from ha] using he
      rw [← hs] at hv
      simp [Edge.far, Edge.reversed, hv]
    | incoming =>
      have hs : e.source = v := by simpa [Edge.heldAt, show e.target ≠ v from ha] using he
      rw [← hs] at hv
      simp [Edge.far, Edge.reversed, hv]

namespace View

theorem toList_vertices_stack (g : Multigraph V E) (ls : List Level) :
    ((whole g).stack ls).vertices.toList = .ok (g.vertices.filter (keepsVertex ls)) := by
  have h := Traversal.toList_of_pending (vertices_stack g ls)
  rwa [List.map_id'] at h

theorem toList_edges_stack (g : Multigraph V E) (ls : List Level) :
    ((whole g).stack ls).edges.toList = .ok (g.edges.filter (showsEdge ls)) := by
  have h := Traversal.toList_of_pending (edges_stack g ls)
  rwa [List.map_id'] at h

theorem toList_incidence {g : Multigraph V E} (ls : List Level) {v : Vertex} {d : Direction} {es : List Edge}
    (h : g.incidence v d = .ok es) :
    (((whole g).stack ls).incidence v d >>= Traversal.toList) =
      .ok (es.filter fun e => keepsEdge ls e && keepsVertex ls (e.far d)) := by
  obtain ⟨t, ht, hp⟩ := incidence_stack ls h
  rw [ht, Fallible.ok_bind, Traversal.toList_of_pending hp, List.map_id']

theorem degree_of_toList {g : Multigraph V E} (hg : g.Consistent) {ls : List Level} {v : Vertex} {d : Direction}
    {es : List Edge} (h : (((whole g).stack ls).incidence v d >>= Traversal.toList) = .ok es) :
    ((whole g).stack ls).degree v d = .ok es.length := by
  cases hi : g.incidence v d with
  | ok all =>
    rw [toList_incidence ls hi] at h
    rw [degree_stack hg ls hi, Except.ok.inj h]
  | error f =>
    rw [incidence_stack_error ls hi] at h
    cases h

/-- What a stack lists at a vertex it shows are the edges of its enumeration that the vertex holds, turned to it. -/
theorem toList_incidence_stack {g : Multigraph V E} (hg : g.Consistent) {ls : List Level} {v : Vertex}
    (hlt : v.index < g.numVertices) (hv : keepsVertex ls v = true)
    (hr : g.directed = false → Unoriented g ls) (d : Direction) :
    (((whole g).stack ls).incidence v d >>= Traversal.toList) =
      .ok (((g.edges.filter (showsEdge ls)).filter fun e => e.heldAt g.directed v d).map
        fun e => e.turned v d) := by
  rw [toList_incidence ls (hg.incidence_eq hlt d), List.filter_map, Multigraph.held, List.filter_filter,
    List.filter_filter]
  congr 2
  refine List.filter_congr ?_
  intro e he
  by_cases hh : e.heldAt g.directed v d = true
  · have hk := keeps_turned hv hh fun hd => (hr hd).keepsEdge_reversed he
    simp only [Function.comp_apply, hh, hk, Bool.true_and, Bool.and_true]
  · simp [hh]

/-- What a view lists is itself a graph: an edge is listed only with both of its ends, by whatever tests. -/
theorem lists_closed {w : View V E} (hw : w.base.Consistent) {vs : List Vertex} {es : List Edge}
    (hv : w.vertices.toList = .ok vs) (he : w.edges.toList = .ok es) :
    vs.Sublist w.base.vertices ∧ es.Sublist w.base.edges ∧ ∀ e ∈ es, e.source ∈ vs ∧ e.target ∈ vs := by
  induction w generalizing vs es with
  | whole g =>
    obtain rfl := Except.ok.inj ((Traversal.toList_ofList g.vertices).symm.trans hv)
    obtain rfl := Except.ok.inj ((Traversal.toList_ofList g.edges).symm.trans he)
    refine ⟨.refl _, .refl _, ?_⟩
    intro e hmem
    obtain ⟨hs, ht⟩ := hw.lt_of_mem hmem
    exact ⟨Multigraph.mem_vertices.mpr hs, Multigraph.mem_vertices.mpr ht⟩
  | handle w ih => exact ih hw hv he
  | filtered w l ih =>
    obtain ⟨vs', hvs', hvsub, hvmem⟩ := Candidate.allKept_filter hv
    obtain ⟨es', hes', hesub, hemem⟩ := Candidate.allKept_filter he
    obtain ⟨hvbase, hebase, hends⟩ := ih hw hvs' hes'
    refine ⟨hvsub.trans hvbase, hesub.trans hebase, ?_⟩
    intro e hmem
    obtain ⟨hmem, hkept⟩ := (hemem e).mp hmem
    obtain ⟨hs, ht⟩ := hends e hmem
    obtain ⟨-, hkept⟩ := Test.both_eq_true.mp hkept
    obtain ⟨hks, hkt⟩ := Test.both_eq_true.mp hkept
    exact ⟨(hvmem e.source).mpr ⟨hs, hks⟩, (hvmem e.target).mpr ⟨ht, hkt⟩⟩

/-- Whatever changes built a graph and whatever layers lie over it, at a vertex that is shown the lists of its edges
are read off the enumeration of the view. -/
theorem incidence_eq_edges (directed : Bool) (cs : List (Change V E)) (ls : List Level) (v : Vertex) :
    let g := (Multigraph.empty directed : Multigraph V E).after cs
    let w := (whole g).stack ls
    v.index < g.numVertices → keepsVertex ls v = true →
    ∃ es, w.edges.toList = .ok es ∧
      (directed = true →
        (w.outEdges v >>= Traversal.toList) = .ok (es.filter fun e => e.source = v) ∧
        (w.inEdges v >>= Traversal.toList) = .ok (es.filter fun e => e.target = v)) ∧
      (directed = false → Unoriented g ls →
        ∃ outs, (w.outEdges v >>= Traversal.toList) = .ok outs ∧
          (w.inEdges v >>= Traversal.toList) = .ok (outs.map Edge.reversed) ∧
          outs = (es.filter fun e => e.source = v ∨ e.target = v).map
            (fun e => if e.source = v then e else e.reversed) ∧
          (outs.map Edge.index).Nodup) := by
  intro g w hlt hv
  have hg : g.Consistent := (Multigraph.Consistent.empty directed).after cs
  have hd : g.directed = directed := Multigraph.directed_after _ cs
  refine ⟨_, toList_edges_stack g ls, ?_, ?_⟩
  · intro h
    rw [h] at hd
    have hi := toList_incidence_stack hg hlt hv fun hu => absurd (hd.symm.trans hu) Bool.noConfusion
    simp only [hd, Edge.map_turned_directed] at hi
    exact ⟨hi .outgoing, hi .incoming⟩
  · intro h hr
    rw [h] at hd
    have hi := toList_incidence_stack hg hlt hv fun _ => hr
    simp only [hd] at hi
    refine ⟨_, hi .outgoing, ?_, ?_, ?_⟩
    · rw [← Edge.map_turned_incoming]
      exact hi .incoming
    · simp only [Edge.heldAt, Edge.turned, Edge.anchor, Bool.decide_or, Bool.false_eq_true, if_false]
      rfl
    · rw [Edge.map_index_turned]
      have hn : (g.edges.map Edge.index).Nodup := by
        rw [Multigraph.edges_map_index]
        exact List.nodup_range
      exact hn.sublist ((List.filter_sublist.trans List.filter_sublist).map Edge.index)

/-- A loop, two parallel edges that are stored in opposite orientations, an edge whose far end is hidden and one
that a layer rejects. -/
theorem incidence_eq_edges_undirected :
    let g := (Multigraph.empty false : Multigraph Unit Unit).after
      [.addVertex (), .addVertex (), .addVertex (), .addEdge ⟨1⟩ ⟨1⟩ (), .addEdge ⟨0⟩ ⟨1⟩ (),
        .addEdge ⟨1⟩ ⟨0⟩ (), .addEdge ⟨2⟩ ⟨1⟩ (), .addEdge ⟨1⟩ ⟨0⟩ ()]
    let ls : List Level := [.layer (fun e => e.index < 4) fun _ => true, .handle,
      .layer (fun _ => true) fun v => v.index < 2]
    (1 < g.numVertices ∧ keepsVertex ls ⟨1⟩ = true ∧ Unoriented g ls) ∧
      (((whole g).stack ls).outEdges ⟨1⟩ >>= Traversal.toList) =
        .ok [⟨0, ⟨1⟩, ⟨1⟩⟩, ⟨1, ⟨1⟩, ⟨0⟩⟩, ⟨2, ⟨1⟩, ⟨0⟩⟩] ∧
      (((whole g).stack ls).inEdges ⟨1⟩ >>= Traversal.toList) =
        .ok [⟨0, ⟨1⟩, ⟨1⟩⟩, ⟨1, ⟨0⟩, ⟨1⟩⟩, ⟨2, ⟨0⟩, ⟨1⟩⟩] := by
  intro g ls
  have hlt : 1 < g.numVertices := by decide
  have hv : keepsVertex ls ⟨1⟩ = true := by decide
  have hr : Unoriented g ls := by simp [ls, Unoriented, Level.keepsEdge, Edge.reversed]
  obtain ⟨es, he, -, hu⟩ := incidence_eq_edges (V := Unit) (E := Unit) false
    [.addVertex (), .addVertex (), .addVertex (), .addEdge ⟨1⟩ ⟨1⟩ (), .addEdge ⟨0⟩ ⟨1⟩ (),
      .addEdge ⟨1⟩ ⟨0⟩ (), .addEdge ⟨2⟩ ⟨1⟩ (), .addEdge ⟨1⟩ ⟨0⟩ ()] ls ⟨1⟩ hlt hv
  obtain ⟨outs, ho, hi, hes, -⟩ := hu rfl hr
  have hlist : es = [⟨0, ⟨1⟩, ⟨1⟩⟩, ⟨1, ⟨0⟩, ⟨1⟩⟩, ⟨2, ⟨1⟩, ⟨0⟩⟩] := Except.ok.inj (he.symm.trans rfl)
  rw [hlist] at hes
  rw [hes] at ho hi
  exact ⟨⟨hlt, hv, hr⟩, ho, hi⟩

end View

end GraphViews.Graph
