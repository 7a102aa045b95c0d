import GraphViews.Proofs.Graph.Enumeration
import GraphViews.Proofs.Record.Selection
import Mathlib.Algebra.GroupWithZero.Nat

/-!
# Sums of degrees

The degrees of the vertices that a view shows are counted edge by edge: an edge is counted at the vertices that hold it.
With directions that is one vertex. Without, it is both of its ends, or the one vertex of a loop.
-/

namespace GraphViews.Graph

variable {V E : Type}

private theorem sum_map_add_countP {α : Type} (f : α → Nat) (p : α → Bool) (xs : List α) :
    (xs.map fun x => f x + if p x then 1 else 0).sum = (xs.map f).sum + xs.countP p := by
  induction xs with
  | nil => rfl
  | cons x xs ih =>
    rw [List.map_cons, List.sum_cons, ih, List.map_cons, List.sum_cons, List.countP_cons]
    omega

private theorem sum_countP_comm {α β : Type} (p : α → β → Bool) (xs : List α) (ys : List β) :
    (xs.map fun x => ys.countP (p x)).sum = (ys.map fun y => xs.countP fun x => p x y).sum := by
  induction ys with
  | nil => simp [List.map_const']
  | cons y ys ih =>
    simp only [List.countP_cons, List.map_cons, List.sum_cons]
    rw [sum_map_add_countP (fun x => ys.countP (p x)), ih, Nat.add_comm]

private theorem countP_or_add_countP_and {α : Type} (p q : α → Bool) (xs : List α) :
    (xs.countP fun x => p x || q x) + (xs.countP fun x => p x && q x) = xs.countP p + xs.countP q := by
  induction xs with
  | nil => rfl
  | cons x xs ih =>
    simp only [List.countP_cons]
    cases p x <;> cases q x <;> simp <;> omega

private theorem countP_eq_one {vs : List Vertex} (hn : vs.Nodup) {v : Vertex} (hv : v ∈ vs) :
    (vs.countP fun u => v = u) = 1 := by
  have hcount : (vs.countP fun u => v = u) = vs.count v := by
    refine List.countP_congr ?_
    intro u _
    rw [decide_eq_true_eq, beq_iff_eq]
    exact eq_comm
  rw [hcount, hn.count, if_pos hv]

namespace Edge

variable {vs : List Vertex} {e : Edge}

private theorem countP_heldAt_directed (hn : vs.Nodup) (d : Direction) (h : e.anchor d ∈ vs) :
    (vs.countP fun v => e.heldAt true v d) = 1 :=
  countP_eq_one hn h

/-- An edge is held at two vertices, and a loop at one that counts for both. -/
theorem countP_heldAt_undirected (hn : vs.Nodup) (d : Direction) (hs : e.source ∈ vs) (ht : e.target ∈ vs) :
    ((vs.countP fun v => e.heldAt false v d) + if e.source = e.target then 1 else 0) = 2 := by
  have hboth : (vs.countP fun v => decide (e.source = v) && decide (e.target = v)) =
      if e.source = e.target then 1 else 0 := by
    split
    · rename_i hloop
      rw [hloop]
      simpa using countP_eq_one hn ht
    · rename_i hloop
      rw [List.countP_eq_zero]
      intro v _ hv
      simp only [Bool.and_eq_true, decide_eq_true_eq] at hv
      exact hloop (hv.1.trans hv.2.symm)
  have hsum := countP_or_add_countP_and (fun v => decide (e.source = v)) (fun v => decide (e.target = v)) vs
  rw [hboth, countP_eq_one hn hs, countP_eq_one hn ht] at hsum
  exact hsum

end Edge

/-- How many edges are loops. -/
def loops (es : List Edge) : Nat := es.countP fun e => e.source = e.target

/-- Edges that begin and end at listed vertices are each held at one of these in every direction. -/
theorem sum_held_directed {vs : List Vertex} (hn : vs.Nodup) (d : Direction) {es : List Edge}
    (h : ∀ e ∈ es, e.source ∈ vs ∧ e.target ∈ vs) :
    (vs.map fun v => es.countP fun e => e.heldAt true v d).sum = es.length := by
  have hone : ∀ e ∈ es, (vs.countP fun v => e.heldAt true v d) = 1 := by
    intro e he
    refine Edge.countP_heldAt_directed hn d ?_
    cases d with
    | outgoing => exact (h e he).1
    | incoming => exact (h e he).2
  rw [sum_countP_comm fun v (e : Edge) => e.heldAt true v d, List.map_congr_left hone]
  simp [List.map_const']

private theorem sum_held_undirected {vs : List Vertex} (hn : vs.Nodup) (d : Direction) {es : List Edge}
    (h : ∀ e ∈ es, e.source ∈ vs ∧ e.target ∈ vs) :
    (vs.map fun v => es.countP fun e => e.heldAt false v d).sum + loops es = 2 * es.length := by
  have htwo : ∀ e ∈ es, ((vs.countP fun v => e.heldAt false v d) +
      if decide (e.source = e.target) = true then 1 else 0) = 2 := by
    intro e he
    simp only [decide_eq_true_eq]
    exact Edge.countP_heldAt_undirected hn d (h e he).1 (h e he).2
  rw [sum_countP_comm fun v (e : Edge) => e.heldAt false v d, loops, ← sum_map_add_countP,
    List.map_congr_left htwo]
  simp [List.map_const', Nat.mul_comm]

theorem Multigraph.nodup_vertices (g : Multigraph V E) : g.vertices.Nodup := by
  refine List.Pairwise.map Vertex.mk ?_ List.nodup_range
  intro i j hij h
  exact hij (congrArg Vertex.index h)

namespace View

/-- The degree of a vertex that is shown counts the edges of the enumeration that it holds. -/
theorem mapM_degree_stack {g : Multigraph V E} (hg : g.Consistent) {ls : List Level}
    (hr : g.directed = false → Unoriented g ls) (d : Direction) :
    (g.vertices.filter (keepsVertex ls)).mapM (fun v => ((whole g).stack ls).degree v d) =
      .ok ((g.vertices.filter (keepsVertex ls)).map fun v =>
        (g.edges.filter (showsEdge ls)).countP fun e => e.heldAt g.directed v d) := by
  refine Fallible.mapM_eq_ok_map ?_
  intro v hv
  obtain ⟨hv, hkept⟩ := List.mem_filter.mp hv
  have hlist := toList_incidence_stack hg (Multigraph.mem_vertices.mp hv) hkept hr d
  rw [degree_of_toList hg hlist, List.length_map, List.countP_eq_length_filter]

/-- Whatever changes built a graph and whatever layers lie over it, the degrees of the vertices that are shown add up to
the number of edges that are shown; without directions, and if no layer tells orientations apart, to twice that number
but for the loops, which count once. That number is the one that the summary of a view reports. -/
theorem sum_degrees (directed : Bool) (cs : List (Change V E)) (ls : List Level) :
    let g := (Multigraph.empty directed : Multigraph V E).after cs
    let w := (whole g).stack ls
    ((directed = false → Unoriented g ls) →
      ∃ vs es outs ins, w.vertices.toList = .ok vs ∧ w.edges.toList = .ok es ∧ w.edges.count = .ok es.length ∧
        vs.mapM w.outDegree = .ok outs ∧ vs.mapM w.inDegree = .ok ins ∧
        (directed = true → outs.sum = es.length ∧ ins.sum = es.length) ∧
        (directed = false → outs.sum + loops es = 2 * es.length ∧ ins.sum + loops es = 2 * es.length)) ∧
    ∀ cs : List (Change Record.VertexRow Record.EdgeData),
      let x : Record.DataView := (whole ((Multigraph.empty directed).after cs)).stack ls
      ∃ s, Record.Summary.ofView x = .ok s ∧ x.edges.count = .ok s.visibleEdges := by
  intro g w
  refine ⟨?_, ?_⟩
  · intro hr
    have hg : g.Consistent := (Multigraph.Consistent.empty directed).after cs
    have hd : g.directed = directed := Multigraph.directed_after _ cs
    have hv := toList_vertices_stack g ls
    have he := toList_edges_stack g ls
    have hbase : w.base.Consistent := by
      rw [base_stack]
      exact hg
    obtain ⟨-, -, hends⟩ := lists_closed hbase hv he
    have hn := g.nodup_vertices.filter (keepsVertex ls)
    rw [← hd] at hr
    refine ⟨_, _, _, _, hv, he, ?_, mapM_degree_stack hg hr .outgoing, mapM_degree_stack hg hr .incoming, ?_, ?_⟩
    · exact Traversal.count_of_toList he
    · intro h
      rw [hd, h]
      exact ⟨sum_held_directed hn .outgoing hends, sum_held_directed hn .incoming hends⟩
    · intro h
      rw [hd, h]
      exact ⟨sum_held_undirected hn .outgoing hends, sum_held_undirected hn .incoming hends⟩
  · intro cs x
    have hv := Traversal.count_of_toList (toList_vertices_stack ((Multigraph.empty directed).after cs) ls)
    have he := Traversal.count_of_toList (toList_edges_stack ((Multigraph.empty directed).after cs) ls)
    exact ⟨_, Record.Summary.ofView_of_counts hv he, he⟩

/-- Three edges are shown, one of them a loop; one is rejected, and one leads to a hidden vertex. -/
theorem sum_degrees_looped :
    let g := (Multigraph.empty false : Multigraph Unit Unit).after
      [.addVertex (), .addVertex (), .addVertex (), .addEdge ⟨1⟩ ⟨1⟩ (), .addEdge ⟨0⟩ ⟨1⟩ (),
        .addEdge ⟨1⟩ ⟨0⟩ (), .addEdge ⟨2⟩ ⟨1⟩ (), .addEdge ⟨1⟩ ⟨0⟩ ()]
    let ls : List Level := [.layer (fun e => e.index < 4) fun _ => true, .handle,
      .layer (fun _ => true) fun v => v.index < 2]
    let w := (whole g).stack ls
    Unoriented g ls ∧ w.vertices.toList = .ok [⟨0⟩, ⟨1⟩] ∧ w.edges.count = .ok 3 ∧
      ∃ outs ins, [⟨0⟩, ⟨1⟩].mapM w.outDegree = .ok outs ∧ [⟨0⟩, ⟨1⟩].mapM w.inDegree = .ok ins ∧
        outs.sum + 1 = 2 * 3 ∧ ins.sum + 1 = 2 * 3 := by
  intro g ls w
  have hr : Unoriented g ls := by simp [ls, Unoriented, Level.keepsEdge, Edge.reversed]
  obtain ⟨vs, es, outs, ins, hv, he, hcount, ho, hi, -, hu⟩ := (sum_degrees (V := Unit) (E := Unit) false
    [.addVertex (), .addVertex (), .addVertex (), .addEdge ⟨1⟩ ⟨1⟩ (), .addEdge ⟨0⟩ ⟨1⟩ (),
      .addEdge ⟨1⟩ ⟨0⟩ (), .addEdge ⟨2⟩ ⟨1⟩ (), .addEdge ⟨1⟩ ⟨0⟩ ()] ls).1 fun _ => hr
  obtain rfl : vs = [⟨0⟩, ⟨1⟩] := Except.ok.inj (hv.symm.trans rfl)
  obtain rfl : es = [⟨0, ⟨1⟩, ⟨1⟩⟩, ⟨1, ⟨0⟩, ⟨1⟩⟩, ⟨2, ⟨1⟩, ⟨0⟩⟩] := Except.ok.inj (he.symm.trans rfl)
  obtain ⟨hos, his⟩ := hu rfl
  exact ⟨hr, hv, hcount, outs, ins, ho, hi, hos, his⟩

end View

end GraphViews.Graph
