import GraphViews.Proofs.Record.Selection

/-!
# Which rows make a graph

Rows are loaded exactly if no id repeats and every edge joins known ids. Otherwise the first id that repeats is
named, and without one the first edge row with an unknown end.
-/

namespace GraphViews.Record

open GraphViews.Graph Fallible

/-- Both ends of the row are ids of vertex rows. -/
def EdgeRow.Joins (V : List VertexRow) (r : EdgeRow) : Prop :=
  r.src ∈ V.map VertexRow.vid ∧ r.dst ∈ V.map VertexRow.vid

/-- The end of a row that is not known, its source before its target. -/
def EdgeRow.unknownEnd (V : List VertexRow) (r : EdgeRow) : Int64 :=
  if r.src ∈ V.map VertexRow.vid then r.dst else r.src

/-- The first id, in the order of the rows, that an earlier row has. -/
def FirstRepeated (V : List VertexRow) (vid : Int64) : Prop :=
  ∃ before r after, V = before ++ r :: after ∧ (before.map VertexRow.vid).Nodup ∧
    r.vid ∈ before.map VertexRow.vid ∧ r.vid = vid

/-- The first row of an edge with an end that is not known. -/
def FirstLoose (V : List VertexRow) (E : List EdgeRow) (r : EdgeRow) : Prop :=
  ∃ before after, E = before ++ r :: after ∧ (∀ s ∈ before, s.Joins V) ∧ ¬r.Joins V

variable {g : DataGraph} {V : List VertexRow} {E : List EdgeRow} {directed : Bool} {e : LoadError}

theorem FirstRepeated.not_nodup {vid : Int64} (h : FirstRepeated V vid) :
    ¬(V.map VertexRow.vid).Nodup := by
  obtain ⟨before, r, after, rfl, -, hr, -⟩ := h
  intro hn
  rw [List.map_append, List.map_cons] at hn
  have hne := (List.nodup_append.mp hn).2.2
  exact hne r.vid hr r.vid List.mem_cons_self rfl

theorem FirstLoose.not_joins {r : EdgeRow} (h : FirstLoose V E r) : ¬∀ s ∈ E, s.Joins V := by
  obtain ⟨before, after, rfl, -, hr⟩ := h
  intro hall
  exact hr (hall r (List.mem_append_right before List.mem_cons_self))

theorem Leads.isSome_iff {places : Std.TreeMap Int64 Vertex} (h : Leads places V) {vid : Int64} :
    places[vid]?.isSome = true ↔ vid ∈ V.map VertexRow.vid := by
  rw [Option.isSome_iff_exists, List.mem_map]
  constructor
  · rintro ⟨v, hv⟩
    obtain ⟨r, hr, hvid⟩ := (h vid v).mp hv
    exact ⟨r, List.mem_of_getElem? hr, hvid⟩
  · rintro ⟨r, hr, hvid⟩
    obtain ⟨i, hi⟩ := List.getElem?_of_mem hr
    exact ⟨⟨i⟩, (h vid ⟨i⟩).mpr ⟨r, hi, hvid⟩⟩

private theorem placeVertex_error {p : Placed} (hl : Leads p.places V) {r : VertexRow} :
    placeVertex p r = .error e ↔ r.vid ∈ V.map VertexRow.vid ∧ e = .duplicateVertex r.vid := by
  rw [← hl.isSome_iff, placeVertex, Std.TreeMap.contains_eq_isSome_getElem?]
  by_cases hr : p.places[r.vid]?.isSome = true <;> simp [hr, eq_comm]

theorem exists_placeVertices (hV : (V.map VertexRow.vid).Nodup) (directed : Bool) :
    ∃ p, placeVertices directed V = .ok p := by
  cases hp : placeVertices directed V with
  | ok p => exact ⟨p, rfl⟩
  | error e =>
    obtain ⟨before, r, after, p, rfl, hb, hr⟩ := foldlM_eq_error.mp hp
    obtain ⟨-, hl, -⟩ := placeVertices_ok hb
    have hmem := ((placeVertex_error hl).mp hr).1
    have hrep : FirstRepeated (before ++ r :: after) r.vid :=
      ⟨before, r, after, rfl, hl.nodup, hmem, rfl⟩
    exact absurd hV hrep.not_nodup

theorem placeVertices_error :
    placeVertices directed V = .error e ↔ ∃ vid, FirstRepeated V vid ∧ e = .duplicateVertex vid := by
  constructor
  · intro h
    obtain ⟨before, r, after, p, rfl, hb, hr⟩ := foldlM_eq_error.mp h
    obtain ⟨-, hl, -⟩ := placeVertices_ok hb
    obtain ⟨hmem, rfl⟩ := (placeVertex_error hl).mp hr
    exact ⟨r.vid, ⟨before, r, after, rfl, hl.nodup, hmem, rfl⟩, rfl⟩
  · rintro ⟨vid, ⟨before, r, after, rfl, hn, hmem, rfl⟩, rfl⟩
    obtain ⟨p, hb⟩ := exists_placeVertices hn directed
    obtain ⟨-, hl, -⟩ := placeVertices_ok hb
    exact foldlM_eq_error.mpr
      ⟨before, r, after, p, rfl, hb, (placeVertex_error hl).mpr ⟨hmem, rfl⟩⟩

private theorem endpoint_error {places : Std.TreeMap Int64 Vertex} (hl : Leads places V) {r : EdgeRow}
    {vid : Int64} : endpoint places r vid = .error e ↔
      vid ∉ V.map VertexRow.vid ∧ e = .unknownVertex r.src r.dst vid := by
  rw [← hl.isSome_iff, endpoint]
  cases places[vid]? <;> simp [eq_comm]

private theorem exists_endpoint {places : Std.TreeMap Int64 Vertex} (hl : Leads places V) {r : EdgeRow}
    {vid : Int64} (h : vid ∈ V.map VertexRow.vid) : ∃ v, endpoint places r vid = .ok v := by
  cases hv : endpoint places r vid with
  | ok v => exact ⟨v, rfl⟩
  | error e => exact absurd h ((endpoint_error hl).mp hv).1

private theorem exists_placeEdge {F : List EdgeRow} (hg : Holds g V F) {places : Std.TreeMap Int64 Vertex}
    (hl : Leads places V) {r : EdgeRow} (hr : r.Joins V) : ∃ g', placeEdge places g r = .ok g' := by
  obtain ⟨u, hu⟩ := exists_endpoint (r := r) hl hr.1
  obtain ⟨v, hv⟩ := exists_endpoint (r := r) hl hr.2
  obtain ⟨s, hs, -⟩ := endpoint_ok hl hu
  obtain ⟨t, ht, -⟩ := endpoint_ok hl hv
  have hlt : u.index < g.nodes.size ∧ v.index < g.nodes.size := by
    have hsize : g.nodes.size = V.length := hg.numVertices_eq
    rw [hsize]
    exact ⟨(List.getElem?_eq_some_iff.mp hs).1, (List.getElem?_eq_some_iff.mp ht).1⟩
  rw [placeEdge, hu, ok_bind, hv, ok_bind, Multigraph.addEdge, if_pos hlt]
  exact ⟨_, rfl⟩

private theorem placeEdge_error {F : List EdgeRow} (hg : Holds g V F) {places : Std.TreeMap Int64 Vertex}
    (hl : Leads places V) {r : EdgeRow} : placeEdge places g r = .error e ↔
      ¬r.Joins V ∧ e = .unknownVertex r.src r.dst (r.unknownEnd V) := by
  by_cases hr : r.Joins V
  · obtain ⟨g', hg'⟩ := exists_placeEdge hg hl hr
    simp [hg', hr]
  · rw [placeEdge, EdgeRow.unknownEnd]
    by_cases hs : r.src ∈ V.map VertexRow.vid
    · have hd : r.dst ∉ V.map VertexRow.vid := fun hd => hr ⟨hs, hd⟩
      obtain ⟨u, hu⟩ := exists_endpoint (r := r) hl hs
      have hv := (endpoint_error (r := r) hl).mpr ⟨hd, rfl⟩
      rw [hu, ok_bind, hv, error_bind, if_pos hs]
      simp [hr, eq_comm]
    · have hu := (endpoint_error (r := r) hl).mpr ⟨hs, rfl⟩
      rw [hu, error_bind, if_neg hs]
      simp [hr, eq_comm]

theorem exists_placeEdges {p : Placed} (hp : Holds p.graph V []) (hl : Leads p.places V)
    (hE : ∀ r ∈ E, r.Joins V) : ∃ g, placeEdges p E = .ok g := by
  cases h : placeEdges p E with
  | ok g => exact ⟨g, rfl⟩
  | error e =>
    obtain ⟨before, r, after, g, rfl, hb, hr⟩ := foldlM_eq_error.mp h
    obtain ⟨hg, -, -⟩ := placeEdges_ok hp hl hb
    have hloose := ((placeEdge_error hg hl).mp hr).1
    exact absurd (hE r (List.mem_append_right before List.mem_cons_self)) hloose

theorem placeEdges_error {p : Placed} (hp : Holds p.graph V []) (hl : Leads p.places V) :
    placeEdges p E = .error e ↔
      ∃ r, FirstLoose V E r ∧ e = .unknownVertex r.src r.dst (r.unknownEnd V) := by
  constructor
  · intro h
    obtain ⟨before, r, after, g, rfl, hb, hr⟩ := foldlM_eq_error.mp h
    obtain ⟨hg, -, hk⟩ := placeEdges_ok hp hl hb
    obtain ⟨hloose, rfl⟩ := (placeEdge_error hg hl).mp hr
    exact ⟨r, ⟨before, after, rfl, hk, hloose⟩, rfl⟩
  · rintro ⟨r, ⟨before, after, rfl, hk, hloose⟩, rfl⟩
    obtain ⟨g, hb⟩ := exists_placeEdges hp hl hk
    obtain ⟨hg, -, -⟩ := placeEdges_ok hp hl hb
    exact foldlM_eq_error.mpr
      ⟨before, r, after, g, rfl, hb, (placeEdge_error hg hl).mpr ⟨hloose, rfl⟩⟩

theorem load_error_iff : load directed V E = .error e ↔
    (∃ vid, FirstRepeated V vid ∧ e = .duplicateVertex vid) ∨
    ((V.map VertexRow.vid).Nodup ∧
      ∃ r, FirstLoose V E r ∧ e = .unknownVertex r.src r.dst (r.unknownEnd V)) := by
  by_cases hV : (V.map VertexRow.vid).Nodup
  · obtain ⟨p, hp⟩ := exists_placeVertices hV directed
    obtain ⟨hh, hl, -⟩ := placeVertices_ok hp
    have hload : load directed V E = placeEdges p E := by
      rw [load, hp, ok_bind]
    rw [hload, placeEdges_error hh hl]
    constructor
    · intro h
      exact .inr ⟨hV, h⟩
    · rintro (⟨vid, hrep, -⟩ | ⟨-, h⟩)
      · exact absurd hV hrep.not_nodup
      · exact h
  · -- No vertices can be placed, so that the edges are not looked at.
    have hload : load directed V E = .error e ↔ placeVertices directed V = .error e := by
      cases hp : placeVertices directed V with
      | ok p =>
        obtain ⟨-, hl, -⟩ := placeVertices_ok hp
        exact absurd hl.nodup hV
      | error f => simp [load, hp]
    rw [hload, placeVertices_error]
    constructor
    · intro h
      exact .inl h
    · rintro (h | ⟨hn, -⟩)
      · exact h
      · exact absurd hn hV

theorem exists_load_iff : (∃ g, load directed V E = .ok g) ↔
    (V.map VertexRow.vid).Nodup ∧ ∀ r ∈ E, r.Joins V := by
  constructor
  · rintro ⟨g, h⟩
    obtain ⟨p, hp, he⟩ := bind_eq_ok.mp h
    obtain ⟨hh, hl, -⟩ := placeVertices_ok hp
    exact ⟨hl.nodup, (placeEdges_ok hh hl he).2.2⟩
  · rintro ⟨hV, hE⟩
    cases h : load directed V E with
    | ok g => exact ⟨g, rfl⟩
    | error e =>
      rcases load_error_iff.mp h with ⟨vid, hrep, -⟩ | ⟨-, r, hloose, -⟩
      · exact absurd hV hrep.not_nodup
      · exact absurd hE hloose.not_joins

def Carries (g : DataGraph) (vid : Int64) (v : Vertex) : Prop :=
  ∃ r, g.vertexProperty v = .ok r ∧ r.vid = vid

/-- Where ids are distinct, no other vertex carries the id of a row. -/
theorem Holds.carries_iff (h : Holds g V E) (hV : (V.map VertexRow.vid).Nodup) {v w : Vertex}
    {r : VertexRow} (hr : V[v.index]? = some r) : Carries g r.vid w ↔ w = v := by
  constructor
  · rintro ⟨s, hs, hvid⟩
    have hi := index_eq_of_vid_eq hV (h.vertexProperty_iff.mp hs) hr hvid
    exact Vertex.eq_iff.mpr hi
  · rintro rfl
    exact ⟨r, h.vertexProperty hr, rfl⟩

/-- The edge at the place of a row is the one between the vertices that carry its ends. -/
theorem Holds.exists_edge (h : Holds g V E) (hV : (V.map VertexRow.vid).Nodup) {i : Nat}
    {r : EdgeRow} (hr : E[i]? = some r) :
    ∃ u v, g.edges[i]? = some ⟨i, u, v⟩ ∧ g.edgeProperty ⟨i, u, v⟩ = .ok r.data ∧
      (∀ w, Carries g r.src w ↔ w = u) ∧ ∀ w, Carries g r.dst w ↔ w = v := by
  have hi : i < g.edges.length := by
    rw [g.length_edges, h.numEdges_eq]
    exact (List.getElem?_eq_some_iff.mp hr).1
  obtain ⟨e, he⟩ : ∃ e, g.edges[i]? = some e := ⟨_, List.getElem?_eq_getElem hi⟩
  have hindex := Multigraph.index_of_getElem? he
  obtain ⟨r', s, t, hrow, hs, hsv, ht, htv, hE⟩ := h.exists_ends (List.mem_of_getElem? he)
  rw [hindex, hr] at hE
  cases hE
  obtain ⟨d, hd, hrow⟩ := bind_eq_ok.mp hrow
  obtain ⟨s', -, hrow⟩ := bind_eq_ok.mp hrow
  obtain ⟨t', -, hrow⟩ := bind_eq_ok.mp hrow
  refine ⟨e.source, e.target, ?_, ?_, ?_, ?_⟩
  · rw [he, ← hindex]
  · rw [← hindex]
    change (View.whole g).edgeProperty e = _
    rw [hd, ← Except.ok.inj hrow]
    rfl
  · intro w
    rw [← hsv]
    exact h.carries_iff hV hs
  · intro w
    rw [← htv]
    exact h.carries_iff hV ht

/-- Rows are loaded exactly if no id repeats and all edges join known ids. Then the graph shows the rows and no
others; each vertex carries the row at its place, and each edge joins the vertices that its row names.
Otherwise the first id that repeats is named, whatever the edges are, and without one the first edge row with
an unknown end, and of its ends the source if that is unknown. -/
theorem load_exact (directed : Bool) (V : List VertexRow) (E : List EdgeRow) :
    ((∃ g, load directed V E = .ok g) ↔
      (V.map VertexRow.vid).Nodup ∧ ∀ r ∈ E, r.Joins V) ∧
    (∀ g, load directed V E = .ok g →
      g.directed = directed ∧ Snapshot.ofView (.whole g) = .ok ⟨V, E⟩ ∧
      g.numVertices = V.length ∧ g.numEdges = E.length ∧
      (∀ k r, V[k]? = some r → g.vertexProperty ⟨k⟩ = .ok r) ∧
      ∀ i r, E[i]? = some r → ∃ u v, g.edges[i]? = some ⟨i, u, v⟩ ∧
        g.edgeProperty ⟨i, u, v⟩ = .ok r.data ∧
        (∀ w, Carries g r.src w ↔ w = u) ∧ ∀ w, Carries g r.dst w ↔ w = v) ∧
    ∀ e, load directed V E = .error e ↔
      (∃ vid, FirstRepeated V vid ∧ e = .duplicateVertex vid) ∨
      ((V.map VertexRow.vid).Nodup ∧ ∃ r, FirstLoose V E r ∧
        e = .unknownVertex r.src r.dst (if r.src ∈ V.map VertexRow.vid then r.dst else r.src)) := by
  refine ⟨exists_load_iff, ?_, fun e => load_error_iff⟩
  intro g h
  obtain ⟨hg, hV, hd⟩ := load_ok h
  refine ⟨hd, hg.snapshot_whole, hg.numVertices_eq, hg.numEdges_eq, ?_, ?_⟩
  · intro k r hr
    exact hg.vertexProperty hr
  · intro i r hr
    exact hg.exists_edge hV hr

/-- A loop beside two edges that are stored in opposite orientations; then an id that repeats under edges to
nowhere; then an edge row of which both ends are unknown, behind one of which the target is. -/
theorem load_exact_cases :
    (∃ g u v, load false [⟨7, 0⟩, ⟨-3, 1⟩] [⟨-3, 7, 0, 1⟩, ⟨7, 7, 0, 2⟩, ⟨7, -3, 0, 3⟩] = .ok g ∧
      g.edges[2]? = some ⟨2, u, v⟩ ∧ (∀ w, Carries g 7 w ↔ w = u) ∧ ∀ w, Carries g (-3) w ↔ w = v) ∧
    load true [⟨1, 0⟩, ⟨2, 0⟩, ⟨2, 1⟩, ⟨1, 0⟩] [⟨8, 9, 0, 0⟩] = .error (.duplicateVertex 2) ∧
    load true [⟨1, 0⟩, ⟨2, 0⟩] [⟨1, 2, 0, 0⟩, ⟨1, 5, 0, 0⟩, ⟨8, 9, 0, 0⟩] =
      .error (.unknownVertex 1 5 5) := by
  refine ⟨?_, ?_, ?_⟩
  · obtain ⟨hiff, hok, -⟩ := load_exact false [⟨7, 0⟩, ⟨-3, 1⟩]
      [⟨-3, 7, 0, 1⟩, ⟨7, 7, 0, 2⟩, ⟨7, -3, 0, 3⟩]
    obtain ⟨g, hg⟩ := hiff.mpr ⟨by decide, by unfold EdgeRow.Joins; decide⟩
    obtain ⟨-, -, -, -, -, hedge⟩ := hok g hg
    obtain ⟨u, v, he, -, hu, hv⟩ := hedge 2 _ rfl
    exact ⟨g, u, v, hg, he, hu, hv⟩
  · obtain ⟨-, -, herr⟩ := load_exact true [⟨1, 0⟩, ⟨2, 0⟩, ⟨2, 1⟩, ⟨1, 0⟩] [⟨8, 9, 0, 0⟩]
    refine (herr _).mpr (.inl ⟨2, ?_, rfl⟩)
    exact ⟨[⟨1, 0⟩, ⟨2, 0⟩], ⟨2, 1⟩, [⟨1, 0⟩], rfl, by decide, by decide, rfl⟩
  · obtain ⟨-, -, herr⟩ := load_exact true [⟨1, 0⟩, ⟨2, 0⟩]
      [⟨1, 2, 0, 0⟩, ⟨1, 5, 0, 0⟩, ⟨8, 9, 0, 0⟩]
    refine (herr _).mpr (.inr ⟨by decide, ⟨1, 5, 0, 0⟩, ?_, rfl⟩)
    refine ⟨[⟨1, 2, 0, 0⟩], [⟨8, 9, 0, 0⟩], rfl, ?_, ?_⟩
    · unfold EdgeRow.Joins
      decide
    · unfold EdgeRow.Joins
      decide

end GraphViews.Record
