import GraphViews.Proofs.Graph.Calls

/-!
# What is handed out

Every descriptor that a query of a view gives out belongs to the graph below, whatever the tests of the view are.
-/

namespace GraphViews.Graph

variable {V E α β : Type}

namespace Traversal

def items (t : Traversal α) : List α := t.pending.map Candidate.item

@[simp] theorem items_ofList (xs : List α) : (ofList xs).items = xs := by
  rw [items, pending_ofList, List.map_map]
  exact List.map_id' xs

@[simp] theorem items_filter (p : Test α) (t : Traversal α) : (t.filter p).items = t.items := by
  rw [items, filter, List.map_map]
  rfl

@[simp] theorem items_map (f : α → β) (t : Traversal α) : (t.map f).items = t.items.map f := by
  rw [items, items, map, List.map_map, List.map_map]
  rfl

end Traversal

namespace View

/-- The edges that a query of the view gives out, or would give out if its tests dropped nothing. -/
inductive GivesEdge (w : View V E) : Edge → Prop
  | listed {e : Edge} (he : e ∈ w.edges.items) : w.GivesEdge e
  | incident {v : Vertex} {d : Direction} {t : Traversal Edge} {e : Edge} (ht : w.incidence v d = .ok t)
      (he : e ∈ t.items) : w.GivesEdge e
  | between {u v : Vertex} {t : Traversal Edge} {e : Edge} (ht : w.edgesBetween u v = .ok t)
      (he : e ∈ t.items) : w.GivesEdge e
  | found {u v : Vertex} {e : Edge} (he : w.edge? u v = .ok (some e)) : w.GivesEdge e

/-- The vertices that a query of the view gives out, or would give out if its tests dropped nothing. -/
inductive GivesVertex (w : View V E) : Vertex → Prop
  | listed {v : Vertex} (hv : v ∈ w.vertices.items) : w.GivesVertex v
  | neighbor {u v : Vertex} {t : Traversal Vertex} (ht : w.neighbors u = .ok t) (hv : v ∈ t.items) :
      w.GivesVertex v
  | source {e : Edge} (he : w.GivesEdge e) : w.GivesVertex (w.source e)
  | target {e : Edge} (he : w.GivesEdge e) : w.GivesVertex (w.target e)

theorem items_vertices (w : View V E) : w.vertices.items = w.base.vertices := by
  induction w with
  | whole g => exact Traversal.items_ofList g.vertices
  | handle w ih => exact ih
  | filtered w l ih => rw [vertices, Traversal.items_filter, ih, base]

theorem items_edges (w : View V E) : w.edges.items = w.base.edges := by
  induction w with
  | whole g => exact Traversal.items_ofList g.edges
  | handle w ih => exact ih
  | filtered w l ih => rw [edges, Traversal.items_filter, ih, base]

private theorem items_incidence {w : View V E} {v : Vertex} {d : Direction} {t : Traversal Edge}
    (ht : w.incidence v d = .ok t) : w.base.incidence v d = .ok t.items := by
  induction w generalizing t with
  | whole g =>
    obtain ⟨es, hes, ht⟩ := Fallible.bind_eq_ok.mp ht
    cases ht
    rw [Traversal.items_ofList]
    exact hes
  | handle w ih => exact ih ht
  | filtered w l ih =>
    obtain ⟨t', ht', ht⟩ := Fallible.bind_eq_ok.mp ht
    cases ht
    rw [Traversal.items_filter]
    exact ih ht'

private theorem mem_of_edge? {w : View V E} {u v : Vertex} {e : Edge} (he : w.edge? u v = .ok (some e)) :
    ∃ es, w.base.incidence u .outgoing = .ok es ∧ e ∈ es := by
  induction w with
  | whole g =>
    obtain ⟨es, hes, he⟩ := Fallible.bind_eq_ok.mp he
    exact ⟨es, hes, List.mem_of_find?_eq_some (Except.ok.inj he)⟩
  | handle w ih => exact ih he
  | filtered w l ih =>
    obtain ⟨o, ho, he⟩ := Fallible.bind_eq_ok.mp he
    cases o with
    | none => cases he
    | some e' =>
      obtain ⟨kept, -, he⟩ := Fallible.bind_eq_ok.mp he
      cases kept with
      | false => cases he
      | true =>
        cases he
        exact ih ho

end View

theorem Edge.names_turned {e : Edge} {directed : Bool} {v : Vertex} {d : Direction}
    (he : e.heldAt directed v d = true) : (e.turned v d).Names directed e := by
  cases directed with
  | true => exact .inl (turned_eq_self he)
  | false =>
    unfold turned
    split
    · exact .inl rfl
    · exact .inr ⟨rfl, rfl⟩

theorem Edge.Names.ends {e e₀ : Edge} {directed : Bool} (h : e.Names directed e₀) :
    (e.source = e₀.source ∧ e.target = e₀.target) ∨ (e.source = e₀.target ∧ e.target = e₀.source) := by
  rcases h with rfl | ⟨-, rfl⟩
  · exact .inl ⟨rfl, rfl⟩
  · exact .inr ⟨rfl, rfl⟩

namespace Multigraph.Consistent

variable {g : Multigraph V E}

theorem exists_names_of_incidence (hg : g.Consistent) {v : Vertex} {d : Direction} {es : List Edge}
    (h : g.incidence v d = .ok es) {e : Edge} (he : e ∈ es) : ∃ e₀ ∈ g.edges, e.Names g.directed e₀ := by
  by_cases hv : v.index < g.numVertices
  · rw [hg.incidence_eq hv, Except.ok.injEq] at h
    subst h
    obtain ⟨e₀, he₀, rfl⟩ := List.mem_map.mp he
    obtain ⟨hmem, hheld⟩ := List.mem_filter.mp he₀
    exact ⟨e₀, hmem, Edge.names_turned hheld⟩
  · rw [incidence_foreign hv] at h
    cases h

/-- Whatever view gives out an edge, it belongs to the graph below. -/
theorem exists_names {w : View V E} (hw : w.base.Consistent) {e : Edge} (he : w.GivesEdge e) :
    ∃ e₀ ∈ w.base.edges, e.Names w.base.directed e₀ := by
  cases he with
  | listed he => exact ⟨e, w.items_edges ▸ he, .inl rfl⟩
  | incident ht he => exact hw.exists_names_of_incidence (View.items_incidence ht) he
  | between ht he =>
    obtain ⟨t, hi, h⟩ := Fallible.bind_eq_ok.mp ht
    cases h
    rw [Traversal.items_filter] at he
    exact hw.exists_names_of_incidence (View.items_incidence hi) he
  | found he =>
    obtain ⟨es, hes, he⟩ := View.mem_of_edge? he
    exact hw.exists_names_of_incidence hes he

theorem lt_of_names (hg : g.Consistent) {e : Edge} (he : ∃ e₀ ∈ g.edges, e.Names g.directed e₀) :
    e.source.index < g.numVertices ∧ e.target.index < g.numVertices := by
  obtain ⟨e₀, he₀, hnames⟩ := he
  obtain ⟨hs, ht⟩ := hg.lt_of_mem he₀
  rcases hnames.ends with ⟨h, h'⟩ | ⟨h, h'⟩
  · rw [h, h']
    exact ⟨hs, ht⟩
  · rw [h, h']
    exact ⟨ht, hs⟩

/-- Whatever view gives out a vertex, it belongs to the graph below. -/
theorem lt_of_gives {w : View V E} (hw : w.base.Consistent) {v : Vertex} (hv : w.GivesVertex v) :
    v.index < w.base.numVertices := by
  cases hv with
  | listed hv => exact mem_vertices.mp (w.items_vertices ▸ hv)
  | neighbor ht hv =>
    rw [View.neighbors_eq] at ht
    obtain ⟨t, hi, h⟩ := Fallible.bind_eq_ok.mp ht
    cases h
    rw [Traversal.items_map] at hv
    obtain ⟨e, he, rfl⟩ := List.mem_map.mp hv
    exact (hw.lt_of_names (hw.exists_names (.incident hi he))).2
  | source he =>
    rw [View.source_eq]
    exact (hw.lt_of_names (hw.exists_names he)).1
  | target he =>
    rw [View.target_eq]
    exact (hw.lt_of_names (hw.exists_names he)).2

end Multigraph.Consistent

end GraphViews.Graph
