import GraphViews.Proofs.Graph.Lookup

/-!
# Graphs without directions

An edge of an undirected graph is seen from both of its ends. Under layers that do not tell the two orientations apart,
what is seen from one end is the reverse of what is seen from the other one.
-/

namespace GraphViews.Graph

variable {V E : Type}

namespace Edge

@[simp] theorem reversed_reversed (e : Edge) : e.reversed.reversed = e := rfl

theorem reversed_of_loop {e : Edge} (h : e.source = e.target) : e.reversed = e := by
  obtain ⟨i, s, t⟩ := e
  obtain rfl : s = t := h
  rfl

/-- Whether the edge joins the two vertices, in one orientation or the other. -/
def spans (e : Edge) (u v : Vertex) : Bool :=
  (e.source = u && e.target = v) || (e.source = v && e.target = u)

private theorem spans_comm (e : Edge) (u v : Vertex) : e.spans v u = e.spans u v := Bool.or_comm _ _

/-- A vertex lists an edge as one to `v` exactly if the edge joins the two. -/
theorem heldAt_and_target (e : Edge) (u v : Vertex) :
    (e.heldAt false u .outgoing && decide ((e.turned u .outgoing).target = v)) = e.spans u v := by
  by_cases hs : e.source = u
  · have ht : e.turned u .outgoing = e := by simp [turned, anchor, hs]
    have hh : e.heldAt false u .outgoing = true := by simp [heldAt, hs]
    rw [ht, hh, Bool.true_and]
    by_cases hv : e.target = v
    · simp [spans, hs, hv]
    · have hloop : u = v → ¬e.target = u := by
        rintro rfl
        exact hv
      simpa [spans, hs, hv] using hloop
  · have ht : e.turned u .outgoing = e.reversed := by simp [turned, anchor, hs]
    simp [ht, heldAt, spans, hs, reversed, Bool.and_comm]

private theorem turned_of_spans {e : Edge} {u v : Vertex} (h : e.spans u v = true) :
    e.turned v .outgoing = (e.turned u .outgoing).reversed := by
  simp only [spans, Bool.or_eq_true, Bool.and_eq_true, decide_eq_true_eq] at h
  by_cases huv : u = v
  · -- A loop is not turned at all, but it is its own reverse.
    subst huv
    obtain ⟨hs, ht⟩ := or_self_iff.mp h
    have hu : e.turned u .outgoing = e := by simp [turned, anchor, hs]
    rw [hu, reversed_of_loop (hs.trans ht.symm)]
  · rcases h with ⟨hs, ht⟩ | ⟨hs, ht⟩
    · simp [turned, anchor, hs, huv]
    · have hvu : ¬v = u := fun h => huv h.symm
      simp [turned, anchor, hs, hvu]

private theorem filter_map_reversed {es : List Edge} {p q : Edge → Bool} (h : ∀ e ∈ es, p e.reversed = q e) :
    (es.map reversed).filter p = (es.filter q).map reversed := by
  rw [List.filter_map]
  exact congrArg (List.map reversed) (List.filter_congr h)

end Edge

namespace Multigraph

variable {g : Multigraph V E}

private theorem between_eq (hd : g.directed = false) (u v : Vertex) :
    g.between u v = (g.edges.filter fun e => e.spans u v).map fun e => e.turned u .outgoing := by
  rw [between, List.filter_map, held, hd, List.filter_filter]
  refine congrArg _ (List.filter_congr ?_)
  intro e _
  rw [Bool.and_comm]
  exact e.heldAt_and_target u v

/-- The edges from `v` to `u` are those from `u` to `v` the other way round. -/
theorem between_reversed (hd : g.directed = false) (u v : Vertex) :
    g.between v u = (g.between u v).map Edge.reversed := by
  simp only [between_eq hd, Edge.spans_comm, List.map_map]
  refine List.map_congr_left ?_
  intro e he
  exact Edge.turned_of_spans (List.mem_filter.mp he).2

end Multigraph

/-- Whichever way round a vertex gives an edge out, no layer tells it from its reverse. -/
theorem Unoriented.keepsEdge_given {g : Multigraph V E} {ls : List Level} (h : Unoriented g ls) {v : Vertex}
    {d : Direction} {e : Edge} (he : e ∈ (g.held v d).map fun e => e.turned v d) :
    keepsEdge ls e.reversed = keepsEdge ls e := by
  obtain ⟨e, hmem, rfl⟩ := List.mem_map.mp he
  have hr := h.keepsEdge_reversed (List.mem_filter.mp hmem).1
  unfold Edge.turned
  split
  · exact hr
  · rw [Edge.reversed_reversed, hr]

namespace View

variable {g : Multigraph V E} {ls : List Level} {u v : Vertex}

/-- The edges into a vertex are those out of it the other way round, also at a vertex that is hidden. -/
theorem toList_incoming_reversed (hg : g.Consistent) (hd : g.directed = false) (hr : Unoriented g ls)
    (hv : v.index < g.numVertices) :
    ∃ outs, (((whole g).stack ls).outEdges v >>= Traversal.toList) = .ok outs ∧
      (((whole g).stack ls).inEdges v >>= Traversal.toList) = .ok (outs.map Edge.reversed) := by
  refine ⟨_, toList_incidence ls (hg.incidence_eq hv .outgoing), ?_⟩
  refine (toList_incidence ls (hg.incidence_eq hv .incoming)).trans ?_
  rw [Multigraph.turned_held_undirected hd]
  refine congrArg Except.ok (Edge.filter_map_reversed ?_)
  intro e he
  rw [hr.keepsEdge_given he]
  rfl

private theorem edge?_reversed (hg : g.Consistent) (hd : g.directed = false) (hr : Unoriented g ls)
    (hu : u.index < g.numVertices) (hv : v.index < g.numVertices) :
    ((whole g).stack ls).edge? v u = (((whole g).stack ls).edge? u v).map (Option.map Edge.reversed) := by
  rw [edge?_stack_eq hg ls hu, edge?_stack_eq hg ls hv, Multigraph.between_reversed hd, List.head?_map]
  refine congrArg Except.ok ?_
  cases hf : (g.between u v).head? with
  | none => rfl
  | some e =>
    have hmem : e ∈ g.between u v := List.mem_of_head? hf
    have hk := hr.keepsEdge_given (List.mem_filter.mp hmem).1
    cases hke : keepsEdge ls e <;> simp [Option.filter_some, hk, hke]

theorem toList_edgesBetween_reversed (hg : g.Consistent) (hd : g.directed = false) (hr : Unoriented g ls)
    (hu : u.index < g.numVertices) (hv : v.index < g.numVertices) (hku : keepsVertex ls u = true)
    (hkv : keepsVertex ls v = true) :
    ∃ es, (((whole g).stack ls).edgesBetween u v >>= Traversal.toList) = .ok es ∧
      (((whole g).stack ls).edgesBetween v u >>= Traversal.toList) = .ok (es.map Edge.reversed) := by
  refine ⟨_, toList_edgesBetween_stack hg ls hu hkv, ?_⟩
  rw [toList_edgesBetween_stack hg ls hv hku, Multigraph.between_reversed hd]
  refine congrArg Except.ok (Edge.filter_map_reversed ?_)
  intro e he
  exact hr.keepsEdge_given (List.mem_filter.mp he).1

/-- Whatever changes built an undirected graph and whatever layers lie over it that do not tell orientations apart: a
vertex has the same edges in and out, the same edge is looked up from both of its ends, and the same edges are listed
between two vertices that are shown; each time the other way round. -/
theorem undirected_symmetric (cs : List (Change V E)) (ls : List Level) :
    let g := (Multigraph.empty false : Multigraph V E).after cs
    let w := (whole g).stack ls
    Unoriented g ls →
    (∀ v : Vertex, v.index < g.numVertices →
      ∃ outs, (w.outEdges v >>= Traversal.toList) = .ok outs ∧
        (w.inEdges v >>= Traversal.toList) = .ok (outs.map Edge.reversed) ∧
        w.outDegree v = .ok outs.length ∧ w.inDegree v = .ok outs.length) ∧
    ∀ u v : Vertex, u.index < g.numVertices → v.index < g.numVertices →
      (∃ found, w.edge? u v = .ok found ∧ w.edge? v u = .ok (found.map Edge.reversed) ∧
        ∀ e, found = some e → e.source = u ∧ e.target = v) ∧
      (keepsVertex ls u = true → keepsVertex ls v = true →
        ∃ es, (w.edgesBetween u v >>= Traversal.toList) = .ok es ∧
          (w.edgesBetween v u >>= Traversal.toList) = .ok (es.map Edge.reversed)) := by
  intro g w hr
  have hg : g.Consistent := (Multigraph.Consistent.empty false).after cs
  have hd : g.directed = false := Multigraph.directed_after _ cs
  constructor
  · intro v hv
    obtain ⟨outs, ho, hi⟩ := toList_incoming_reversed hg hd hr hv
    refine ⟨outs, ho, hi, degree_of_toList hg ho, ?_⟩
    have hdeg : w.inDegree v = .ok (outs.map Edge.reversed).length := degree_of_toList hg hi
    rwa [List.length_map] at hdeg
  · intro u v hu hv
    refine ⟨?_, toList_edgesBetween_reversed hg hd hr hu hv⟩
    have hfound := edge?_stack_eq (v := v) hg ls hu
    refine ⟨_, hfound, ?_, ?_⟩
    · rw [edge?_reversed hg hd hr hu hv, hfound]
      rfl
    · intro e he
      obtain ⟨hhead, -⟩ := Option.filter_eq_some_iff.mp he
      exact Multigraph.ends_of_mem_between (List.mem_of_head? hhead)

/-- A loop and parallel edges that are stored both ways, the first of them rejected, seen also from a hidden vertex. -/
theorem undirected_symmetric_stored :
    let g := (Multigraph.empty false : Multigraph Unit Unit).after
      [.addVertex (), .addVertex (), .addVertex (), .addEdge ⟨1⟩ ⟨0⟩ (), .addEdge ⟨1⟩ ⟨1⟩ (),
        .addEdge ⟨0⟩ ⟨1⟩ (), .addEdge ⟨1⟩ ⟨0⟩ (), .addEdge ⟨2⟩ ⟨1⟩ ()]
    let ls : List Level := [.layer (fun e => 0 < e.index) fun _ => true, .handle,
      .layer (fun _ => true) fun v => v.index < 2]
    let w := (whole g).stack ls
    (Unoriented g ls ∧ keepsVertex ls ⟨0⟩ = true ∧ keepsVertex ls ⟨1⟩ = true ∧ keepsVertex ls ⟨2⟩ = false) ∧
      (w.inEdges ⟨2⟩ >>= Traversal.toList) = .ok [⟨4, ⟨1⟩, ⟨2⟩⟩] ∧ w.inDegree ⟨2⟩ = .ok 1 ∧
      w.edge? ⟨2⟩ ⟨1⟩ = .ok (some ⟨4, ⟨2⟩, ⟨1⟩⟩) ∧
      (w.edgesBetween ⟨1⟩ ⟨0⟩ >>= Traversal.toList) = .ok [⟨2, ⟨1⟩, ⟨0⟩⟩, ⟨3, ⟨1⟩, ⟨0⟩⟩] := by
  intro g ls w
  have hr : Unoriented g ls := by simp [ls, Unoriented, Level.keepsEdge, Edge.reversed]
  obtain ⟨hin, hpair⟩ := undirected_symmetric (V := Unit) (E := Unit)
    [.addVertex (), .addVertex (), .addVertex (), .addEdge ⟨1⟩ ⟨0⟩ (), .addEdge ⟨1⟩ ⟨1⟩ (),
      .addEdge ⟨0⟩ ⟨1⟩ (), .addEdge ⟨1⟩ ⟨0⟩ (), .addEdge ⟨2⟩ ⟨1⟩ ()] ls hr
  obtain ⟨outs, ho, hi, -, hdeg⟩ := hin ⟨2⟩ (by decide)
  obtain rfl : outs = [⟨4, ⟨2⟩, ⟨1⟩⟩] := Except.ok.inj (ho.symm.trans rfl)
  obtain ⟨found, hf, hback, -⟩ := (hpair ⟨1⟩ ⟨2⟩ (by decide) (by decide)).1
  obtain rfl : found = some ⟨4, ⟨1⟩, ⟨2⟩⟩ := Except.ok.inj (hf.symm.trans rfl)
  obtain ⟨es, hes, hrev⟩ := (hpair ⟨0⟩ ⟨1⟩ (by decide) (by decide)).2 rfl rfl
  obtain rfl : es = [⟨2, ⟨0⟩, ⟨1⟩⟩, ⟨3, ⟨0⟩, ⟨1⟩⟩] := Except.ok.inj (hes.symm.trans rfl)
  exact ⟨⟨hr, rfl, rfl, rfl⟩, hi, hdeg, hback, hrev⟩

end View

end GraphViews.Graph
