import GraphViews.Proofs.Graph.Enumeration

/-!
# Looking up an edge

The edge that a stack looks up is the first one from `u` to `v` in the graph, if every edge predicate keeps it. The
edges that the stack lists from `u` to `v` are all those that every edge predicate keeps. So the two part where parallel
edges are told apart: where the first of them is rejected and another one is kept.
-/

namespace GraphViews.Graph

variable {V E : Type}

/-- The edges from `u` to `v`, as they are given out at `u`. -/
def Multigraph.between (g : Multigraph V E) (u v : Vertex) : List Edge :=
  ((g.held u .outgoing).map fun e => e.turned u .outgoing).filter fun e => e.target = v

def View.FindsFirst (w : View V E) (u v : Vertex) : Prop :=
  ∃ found listed, w.edge? u v = .ok found ∧ (w.edgesBetween u v >>= Traversal.toList) = .ok listed ∧
    (found.isSome = true ↔ listed ≠ []) ∧ ∀ e, found = some e → listed.head? = some e

/-- All edges are rejected as soon as the first one is. -/
def FirstDecides (keep : Edge → Bool) (es : List Edge) : Prop :=
  ∀ e, es.head? = some e → keep e = false → ∀ f ∈ es, keep f = false

namespace Multigraph

theorem ends_of_mem_between {g : Multigraph V E} {u v : Vertex} {e : Edge} (he : e ∈ g.between u v) :
    e.source = u ∧ e.target = v := by
  obtain ⟨hu, hv⟩ := List.mem_filter.mp he
  exact ⟨anchor_of_mem_turned hu, of_decide_eq_true hv⟩

end Multigraph

private theorem head?_filter_of_kept {α : Type} {p : α → Bool} {xs : List α} {x : α}
    (h : xs.head?.filter p = some x) : (xs.filter p).head? = some x := by
  obtain ⟨hx, hp⟩ := Option.filter_eq_some_iff.mp h
  obtain ⟨ys, rfl⟩ := List.head?_eq_some_iff.mp hx
  rw [List.filter_cons_of_pos hp, List.head?_cons]

namespace View

variable {g : Multigraph V E} {u v : Vertex}

/-- To a vertex that is shown, a stack lists the edges that every edge predicate keeps. -/
theorem toList_edgesBetween_stack (hg : g.Consistent) (ls : List Level) (hu : u.index < g.numVertices)
    (hv : keepsVertex ls v = true) :
    (((whole g).stack ls).edgesBetween u v >>= Traversal.toList) =
      .ok ((g.between u v).filter (keepsEdge ls)) := by
  obtain ⟨t, ht, hp⟩ := incidence_stack ls (hg.incidence_eq hu .outgoing)
  have hb : ((whole g).stack ls).edgesBetween u v = .ok (t.filter (.ofPred fun e => e.target = v)) := by
    rw [edgesBetween_eq, outEdges, ht]
    rfl
  rw [hb, Fallible.ok_bind, Traversal.toList_of_pending (Traversal.pending_filter hp), List.map_id',
    Multigraph.between, List.filter_filter]
  refine congrArg Except.ok (List.filter_congr ?_)
  intro e _
  by_cases he : e.target = v
  · simp [Edge.far, he, hv]
  · simp [he]

theorem edge?_stack_eq (hg : g.Consistent) (ls : List Level) (hu : u.index < g.numVertices) :
    ((whole g).stack ls).edge? u v = .ok ((g.between u v).head?.filter (keepsEdge ls)) := by
  rw [edge?_stack ls (hg.incidence_eq hu .outgoing), Multigraph.between, List.head?_filter]

theorem findsFirst_iff {w : View V E} {keep : Edge → Bool} {es : List Edge}
    (hf : w.edge? u v = .ok (es.head?.filter keep))
    (hl : (w.edgesBetween u v >>= Traversal.toList) = .ok (es.filter keep)) :
    w.FindsFirst u v ↔ FirstDecides keep es := by
  constructor
  · rintro ⟨found, listed, hfound, hlisted, hiff, -⟩ e he hk f hmem
    obtain rfl := Except.ok.inj (hf.symm.trans hfound)
    obtain rfl := Except.ok.inj (hl.symm.trans hlisted)
    rw [← Bool.not_eq_true]
    intro hkf
    have hne : es.filter keep ≠ [] := List.ne_nil_of_mem (List.mem_filter.mpr ⟨hmem, hkf⟩)
    have hsome := hiff.mpr hne
    simp [he, hk] at hsome
  · intro hd
    refine ⟨_, _, hf, hl, ?_, fun e => head?_filter_of_kept⟩
    cases es with
    | nil => simp
    | cons e es =>
      cases hk : keep e with
      | true => simp [hk]
      | false =>
        have hnil : (e :: es).filter keep = [] := by
          rw [List.filter_eq_nil_iff]
          intro f hmem
          simp [hd e rfl hk f hmem]
        rw [hnil]
        simp [hk]

/-- Whatever changes built a graph and whatever layers lie over it, the edge that is looked up from a vertex of the
graph to one that is shown is the first of those in the graph, unless it is rejected; then none is found. So it is the
first of those that are listed; and one is found exactly if one is listed, wherever rejecting the first edge of the
graph is to reject all of them. -/
theorem edge?_stack_parallel (directed : Bool) (cs : List (Change V E)) (ls : List Level) (u v : Vertex) :
    let g := (Multigraph.empty directed : Multigraph V E).after cs
    let w := (whole g).stack ls
    u.index < g.numVertices → keepsVertex ls v = true →
    ∃ parallel, ((whole g).edgesBetween u v >>= Traversal.toList) = .ok parallel ∧
      (∀ e ∈ parallel, e.source = u ∧ e.target = v) ∧
      (w.edgesBetween u v >>= Traversal.toList) = .ok (parallel.filter (keepsEdge ls)) ∧
      w.edge? u v = .ok (parallel.head?.filter (keepsEdge ls)) ∧
      (∀ e, w.edge? u v = .ok (some e) → (parallel.filter (keepsEdge ls)).head? = some e) ∧
      (w.FindsFirst u v ↔ FirstDecides (keepsEdge ls) parallel) := by
  intro g w hu hv
  have hg : g.Consistent := (Multigraph.Consistent.empty directed).after cs
  have hall : ((whole g).edgesBetween u v >>= Traversal.toList) = .ok (g.between u v) := by
    have hkept : (g.between u v).filter (keepsEdge []) = g.between u v :=
      List.filter_eq_self.mpr fun _ _ => rfl
    have h := toList_edgesBetween_stack hg [] hu (keepsVertex_nil v)
    rwa [hkept] at h
  have hlisted := toList_edgesBetween_stack hg ls hu hv
  have hfound := edge?_stack_eq (v := v) hg ls hu
  refine ⟨g.between u v, hall, fun e => Multigraph.ends_of_mem_between, hlisted, hfound, ?_,
    findsFirst_iff hfound hlisted⟩
  intro e he
  exact head?_filter_of_kept (Except.ok.inj (hfound.symm.trans he))

/-- Without directions, where the edges are stored both ways and the last of them is rejected. -/
theorem edge?_stack_parallel_turned :
    let g := (Multigraph.empty false : Multigraph Unit Unit).after
      [.addVertex (), .addVertex (), .addEdge ⟨1⟩ ⟨1⟩ (), .addEdge ⟨1⟩ ⟨0⟩ (), .addEdge ⟨0⟩ ⟨1⟩ (),
        .addEdge ⟨1⟩ ⟨0⟩ ()]
    let ls : List Level := [.layer (fun e => e.index < 3) fun _ => true, .handle,
      .layer (fun _ => true) fun v => 0 < v.index]
    (0 < g.numVertices ∧ keepsVertex ls ⟨1⟩ = true) ∧
      ((whole g).stack ls).edge? ⟨0⟩ ⟨1⟩ = .ok (some ⟨1, ⟨0⟩, ⟨1⟩⟩) ∧
      (((whole g).stack ls).edgesBetween ⟨0⟩ ⟨1⟩ >>= Traversal.toList) =
        .ok [⟨1, ⟨0⟩, ⟨1⟩⟩, ⟨2, ⟨0⟩, ⟨1⟩⟩] ∧
      ((whole g).stack ls).FindsFirst ⟨0⟩ ⟨1⟩ := by
  intro g ls
  have hu : 0 < g.numVertices := by decide
  have hv : keepsVertex ls ⟨1⟩ = true := by decide
  obtain ⟨parallel, hall, -, hlisted, hfound, -, hfirst⟩ := edge?_stack_parallel (V := Unit) (E := Unit) false
    [.addVertex (), .addVertex (), .addEdge ⟨1⟩ ⟨1⟩ (), .addEdge ⟨1⟩ ⟨0⟩ (), .addEdge ⟨0⟩ ⟨1⟩ (),
      .addEdge ⟨1⟩ ⟨0⟩ ()] ls ⟨0⟩ ⟨1⟩ hu hv
  have hp : parallel = [⟨1, ⟨0⟩, ⟨1⟩⟩, ⟨2, ⟨0⟩, ⟨1⟩⟩, ⟨3, ⟨0⟩, ⟨1⟩⟩] := Except.ok.inj (hall.symm.trans rfl)
  rw [hp] at hlisted hfound hfirst
  refine ⟨⟨hu, hv⟩, hfound, hlisted, hfirst.mpr ?_⟩
  -- The first of them is kept, so that there is nothing to decide.
  rintro e ⟨⟩ hk
  cases hk

/-- Of two parallel edges the first is rejected: the other one is listed, and none is found. -/
theorem not_findsFirst_past_rejected :
    let g := (Multigraph.empty true : Multigraph Unit Unit).after
      [.addVertex (), .addVertex (), .addEdge ⟨0⟩ ⟨1⟩ (), .addEdge ⟨0⟩ ⟨1⟩ ()]
    let ls : List Level := [.layer (fun e => e.index ≠ 0) fun _ => true]
    (0 < g.numVertices ∧ keepsVertex ls ⟨1⟩ = true) ∧
      ((whole g).stack ls).edge? ⟨0⟩ ⟨1⟩ = .ok none ∧
      (((whole g).stack ls).edgesBetween ⟨0⟩ ⟨1⟩ >>= Traversal.toList) = .ok [⟨1, ⟨0⟩, ⟨1⟩⟩] ∧
      ¬((whole g).stack ls).FindsFirst ⟨0⟩ ⟨1⟩ := by
  intro g ls
  have hfound : ((whole g).stack ls).edge? ⟨0⟩ ⟨1⟩ = .ok none := rfl
  have hlisted : (((whole g).stack ls).edgesBetween ⟨0⟩ ⟨1⟩ >>= Traversal.toList) = .ok [⟨1, ⟨0⟩, ⟨1⟩⟩] := rfl
  refine ⟨⟨by decide, by decide⟩, hfound, hlisted, ?_⟩
  rintro ⟨found, listed, hf, hl, hiff, -⟩
  obtain rfl := Except.ok.inj (hfound.symm.trans hf)
  obtain rfl := Except.ok.inj (hlisted.symm.trans hl)
  cases hiff.mpr (List.cons_ne_nil _ _)

end View

end GraphViews.Graph
