import GraphViews.Proofs.Graph.Faithful
import GraphViews.Proofs.Graph.Symmetry

/-!
# Which descriptors a graph takes

A graph looks at the link at the place of an edge to decide whether the edge belongs to it. What it gives out is read
off the lists at its vertices, some of it turned. Both come to the same descriptors.
-/

namespace GraphViews.Graph

variable {V E : Type}

private theorem Edge.names_directed {e e₀ : Edge} : e.Names true e₀ ↔ e = e₀ := by
  simp [Names]

private theorem Edge.names_undirected {e e₀ : Edge} : e.Names false e₀ ↔ e₀ = e ∨ e₀ = e.reversed := by
  have hr : e = e₀.reversed ↔ e₀ = e.reversed := by
    constructor <;> rintro rfl <;> rfl
  simp [Names, hr, eq_comm]

/-- An edge is given out under each of its names, by the vertex that stands at the near end of the name. -/
theorem Edge.Names.exists_turned {e e₀ : Edge} {directed : Bool} (h : e.Names directed e₀) (d : Direction) :
    e₀.heldAt directed (e.anchor d) d = true ∧ e₀.turned (e.anchor d) d = e := by
  rcases h with rfl | ⟨rfl, rfl⟩
  · cases directed <;> cases d <;> simp [heldAt, turned, anchor]
  · refine ⟨by cases d <;> simp [heldAt, anchor, reversed], ?_⟩
    unfold turned
    split
    · -- Only a loop has the same end on both sides.
      rename_i hloop
      refine (reversed_of_loop ?_).symm
      cases d with
      | outgoing => exact hloop
      | incoming => exact hloop.symm
    · rfl

namespace Multigraph

/-- `v` is a vertex of the graph, and its edges in this direction are traversed to the end and have `e` among them, just
as it is. -/
def GivesOut (g : Multigraph V E) (v : Vertex) (d : Direction) (e : Edge) : Prop :=
  v ∈ g.vertices ∧ ∃ t es, (View.whole g).incidence v d = .ok t ∧ t.toList = .ok es ∧ e ∈ es

/-- Whatever lies over the graph, the value at `e` is read, and any write to it goes through. -/
structure Takes (g : Multigraph V E) (e : Edge) : Prop where
  read : ∀ w : View V E, w.base = g → ∃ x, w.edgeProperty e = .ok x
  write : ∀ (w : View V E) f, ∃ x h, g.perform (.writeEdge w e f) = (.ok (.edgeWas x), h)

/-- Whatever lies over the graph, neither a read at `e` nor a write to it goes through, and the graph stays as it is. -/
structure Refuses (g : Multigraph V E) (e : Edge) : Prop where
  read : ∀ w : View V E, w.base = g → w.edgeProperty e = .error (foreignEdge e)
  write : ∀ (w : View V E) f, g.perform (.writeEdge w e f) = (.error (foreignEdge e), g)

theorem Consistent.givesOut_iff {g : Multigraph V E} (hg : g.Consistent) {e : Edge} {d : Direction} :
    g.GivesOut (e.anchor d) d e ↔ ∃ e₀ ∈ g.edges, e.Names g.directed e₀ := by
  constructor
  · rintro ⟨-, t, es, ht, hes, he⟩
    obtain ⟨es', hi, ht⟩ := Fallible.bind_eq_ok.mp ht
    cases ht
    rw [Traversal.toList_ofList] at hes
    cases hes
    exact hg.exists_names_of_incidence hi he
  · rintro ⟨e₀, he₀, hnames⟩
    have hv : (e.anchor d).index < g.numVertices := by
      obtain ⟨hs, ht⟩ := hg.lt_of_names ⟨e₀, he₀, hnames⟩
      cases d with
      | outgoing => exact hs
      | incoming => exact ht
    obtain ⟨hheld, hturned⟩ := hnames.exists_turned d
    have hmem : e ∈ (g.held (e.anchor d) d).map fun e' => e'.turned (e.anchor d) d :=
      List.mem_map.mpr ⟨e₀, List.mem_filter.mpr ⟨he₀, hheld⟩, hturned⟩
    refine ⟨mem_vertices.mpr hv, _, _, ?_, Traversal.toList_ofList _, hmem⟩
    rw [View.incidence, hg.incidence_eq hv]
    rfl

private theorem link_foreign {g : Multigraph V E} {e : Edge} (he : ¬∃ e₀ ∈ g.edges, e.Names g.directed e₀) :
    g.link e = .error (foreignEdge e) := by
  cases hl : g.link e with
  | ok l => exact absurd (exists_link_iff.mp ⟨l, hl⟩) he
  | error f =>
    unfold link at hl
    split at hl
    · split at hl
      · cases hl
      · exact hl.symm
    · exact hl.symm

private theorem takes_of_names {g : Multigraph V E} {e : Edge} (he : ∃ e₀ ∈ g.edges, e.Names g.directed e₀) :
    g.Takes e := by
  obtain ⟨l, hl⟩ := exists_link_iff.mpr he
  constructor
  case read =>
    rintro w rfl
    exact ⟨l.property, by rw [View.edgeProperty_eq, edgeProperty, hl]; rfl⟩
  case write => exact fun w f => ⟨_, _, perform_writeEdge hl w f⟩

private theorem refuses_of_foreign {g : Multigraph V E} {e : Edge} (he : ¬∃ e₀ ∈ g.edges, e.Names g.directed e₀) :
    g.Refuses e := by
  have hl := link_foreign he
  constructor
  case read =>
    rintro w rfl
    rw [View.edgeProperty_eq, edgeProperty, hl]
    rfl
  case write =>
    intro w f
    rw [perform_eq, call_writeEdge, modifyEdge, hl]
    rfl

theorem Refuses.not_takes {g : Multigraph V E} {e : Edge} (h : g.Refuses e) : ¬g.Takes e := by
  intro ht
  obtain ⟨x, hx⟩ := ht.read (.whole g) rfl
  rw [h.read (.whole g) rfl] at hx
  cases hx

theorem takes_iff {g : Multigraph V E} {e : Edge} : g.Takes e ↔ ∃ e₀ ∈ g.edges, e.Names g.directed e₀ := by
  refine ⟨?_, takes_of_names⟩
  intro ht
  refine Classical.byContradiction ?_
  intro he
  exact (refuses_of_foreign he).not_takes ht

theorem refuses_iff {g : Multigraph V E} {e : Edge} : g.Refuses e ↔ ¬g.Takes e := by
  refine ⟨Refuses.not_takes, ?_⟩
  rw [takes_iff]
  exact refuses_of_foreign

/-- Whatever calls a graph has taken since it was empty and whatever numbers a descriptor is made of: the graph takes it
exactly if it gives it out at its source, and exactly if it gives it out at its target. All others are refused. With
directions those are the edges as they are stored, and without them also the other way round. -/
theorem takes_exactly_what_is_given_out (directed : Bool) (cs : List (Call V E)) (e : Edge) :
    let g := (empty directed : Multigraph V E).run cs
    (g.Takes e ↔ g.GivesOut e.source .outgoing e) ∧
    (g.Takes e ↔ g.GivesOut e.target .incoming e) ∧
    (g.Refuses e ↔ ¬g.Takes e) ∧
    (directed = true → (g.Takes e ↔ e ∈ g.edges)) ∧
    (directed = false → (g.Takes e ↔ e ∈ g.edges ∨ e.reversed ∈ g.edges)) := by
  intro g
  have hg : g.Consistent := (Consistent.empty directed).run cs
  have hd : g.directed = directed := directed_run _ cs
  refine ⟨?_, ?_, refuses_iff, ?_, ?_⟩
  · exact takes_iff.trans (hg.givesOut_iff (d := .outgoing)).symm
  · exact takes_iff.trans (hg.givesOut_iff (d := .incoming)).symm
  · rintro rfl
    rw [takes_iff, hd]
    simp [Edge.names_directed]
  · rintro rfl
    rw [takes_iff, hd]
    simp only [Edge.names_undirected, and_or_left, exists_or, exists_eq_right]

/-- Parallel edges that are stored both ways, and a loop: a name with swapped ends is taken only without directions, and
one with the ends of another edge not at all. -/
theorem takes_exactly_what_is_given_out_swapped :
    let cs : List (Call Unit Unit) := [.addVertex (), .addVertex (), .addEdge ⟨0⟩ ⟨1⟩ (), .addEdge ⟨1⟩ ⟨1⟩ (),
      .addEdge ⟨1⟩ ⟨0⟩ (), .addEdge ⟨1⟩ ⟨2⟩ ()]
    let g := (empty false).run cs
    let h := (empty true).run cs
    (g.Takes ⟨0, ⟨1⟩, ⟨0⟩⟩ ∧ g.GivesOut ⟨1⟩ .outgoing ⟨0, ⟨1⟩, ⟨0⟩⟩ ∧ g.GivesOut ⟨0⟩ .incoming ⟨0, ⟨1⟩, ⟨0⟩⟩) ∧
      (h.Refuses ⟨0, ⟨1⟩, ⟨0⟩⟩ ∧ h.Takes ⟨2, ⟨1⟩, ⟨0⟩⟩) ∧ g.Takes ⟨1, ⟨1⟩, ⟨1⟩⟩ ∧
      g.Refuses ⟨0, ⟨1⟩, ⟨1⟩⟩ ∧ g.Refuses ⟨3, ⟨1⟩, ⟨2⟩⟩ := by
  intro cs g h
  have hg := takes_exactly_what_is_given_out (V := Unit) (E := Unit) false cs
  have hh := takes_exactly_what_is_given_out (V := Unit) (E := Unit) true cs
  have hes (directed : Bool) : ((empty directed : Multigraph Unit Unit).run cs).edges =
      [⟨0, ⟨0⟩, ⟨1⟩⟩, ⟨1, ⟨1⟩, ⟨1⟩⟩, ⟨2, ⟨1⟩, ⟨0⟩⟩] := by cases directed <;> rfl
  obtain ⟨hout, hin, -, -, hboth⟩ := hg ⟨0, ⟨1⟩, ⟨0⟩⟩
  obtain ⟨-, -, hswapped, hstored, -⟩ := hh ⟨0, ⟨1⟩, ⟨0⟩⟩
  obtain ⟨-, -, -, hparallel, -⟩ := hh ⟨2, ⟨1⟩, ⟨0⟩⟩
  obtain ⟨-, -, -, -, hloop⟩ := hg ⟨1, ⟨1⟩, ⟨1⟩⟩
  obtain ⟨-, -, hmixed, -, hends⟩ := hg ⟨0, ⟨1⟩, ⟨1⟩⟩
  obtain ⟨-, -, hnowhere, -, hplace⟩ := hg ⟨3, ⟨1⟩, ⟨2⟩⟩
  have ht : g.Takes ⟨0, ⟨1⟩, ⟨0⟩⟩ := (hboth rfl).mpr (by simp [hes, Edge.reversed])
  refine ⟨⟨ht, hout.mp ht, hin.mp ht⟩, ⟨?_, (hparallel rfl).mpr (by simp [hes])⟩,
    (hloop rfl).mpr (by simp [hes]), ?_, ?_⟩
  · exact hswapped.mpr fun h => by simpa [hes] using (hstored rfl).mp h
  · exact hmixed.mpr fun h => by simpa [hes, Edge.reversed] using (hends rfl).mp h
  · exact hnowhere.mpr fun h => by simpa [hes, Edge.reversed] using (hplace rfl).mp h

end Multigraph

end GraphViews.Graph
