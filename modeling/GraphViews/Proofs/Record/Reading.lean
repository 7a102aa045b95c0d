import GraphViews.Proofs.Command.Results
import GraphViews.Proofs.Tables.Select

/-!
# Databases and their rows

A database is loaded as the rows of its two tables are, by increasing number. Where these cannot be read, the first
problem is reported, the vertices before the edges, and no graph is begun.
-/

namespace GraphViews.Record

open GraphViews.Tables GraphViews.Graph Fallible

/-- The columns of a vertex row, in the order of its values. -/
def vertexColumns : List String := ["vid", "vlabel"]

def edgeColumns : List String := ["src", "dst", "elabel", "capacity"]

theorem VertexRow.values_injective : Function.Injective VertexRow.values := by
  intro r s h
  cases r
  cases s
  simpa [values] using h

theorem EdgeRow.values_injective : Function.Injective EdgeRow.values := by
  intro r s h
  cases r
  cases s
  simpa [values] using h

variable {db : Database} {V : List VertexRow} {E : List EdgeRow} {e : DatabaseError}

private theorem unreadable_map {α β : Type} (x : Except DatabaseError α) (f : α → β) :
    (unreadable x).map f = unreadable (x.map f) := by
  cases x <;> rfl

theorem readVertices_values (db : Database) :
    (readVertices db).map (List.map VertexRow.values) = unreadable (db.select "vertices" vertexColumns) := by
  rw [readVertices, unreadable_map, Database.select]
  congr 1
  cases db.find "vertices" with
  | error e => rfl
  | ok t =>
    simp only [ok_bind, Table.select, vertexColumns, List.mapM_cons, List.mapM_nil]
    cases hvid : t.locate "vid" with
    | error e => rfl
    | ok i =>
      cases hvlabel : t.locate "vlabel" with
      | error e => rfl
      | ok j =>
        simp only [ok_bind, pure_eq_ok, map_mapM]
        congr 1
        funext r
        simp only [Table.read, List.zipIdx_cons, List.zipIdx_nil, List.mapM_cons, List.mapM_nil, hvid, hvlabel, ok_bind]
        simp only [map_bind, bind_assoc, ok_bind, pure_eq_ok]
        rfl

theorem readEdges_values (db : Database) :
    (readEdges db).map (List.map EdgeRow.values) = unreadable (db.select "edges" edgeColumns) := by
  rw [readEdges, unreadable_map, Database.select]
  congr 1
  cases db.find "edges" with
  | error e => rfl
  | ok t =>
    simp only [ok_bind, Table.select, edgeColumns, List.mapM_cons, List.mapM_nil]
    cases hsrc : t.locate "src" with
    | error e => rfl
    | ok i =>
      cases hdst : t.locate "dst" with
      | error e => rfl
      | ok j =>
        cases helabel : t.locate "elabel" with
        | error e => rfl
        | ok k =>
          cases hcapacity : t.locate "capacity" with
          | error e => rfl
          | ok l =>
            simp only [ok_bind, pure_eq_ok, map_mapM]
            congr 1
            funext r
            simp only [Table.read, List.zipIdx_cons, List.zipIdx_nil, List.mapM_cons, List.mapM_nil, hsrc, hdst,
              helabel, hcapacity, ok_bind]
            simp only [map_bind, bind_assoc, ok_bind, pure_eq_ok]
            rfl

section Values

variable {α : Type} {values : α → List Int64} {read : Except LoadError (List α)}
  {selected : Except DatabaseError (List (List Int64))} {lists : List (List Int64)} {xs : List α}

private theorem read_ok (hv : Function.Injective values) (h : read.map (List.map values) = unreadable selected)
    (hs : selected = .ok (xs.map values)) : read = .ok xs := by
  rw [hs] at h
  cases read with
  | error e => cases h
  | ok ys => rw [List.map_injective_iff.mpr hv (Except.ok.inj h)]

private theorem read_error (h : read.map (List.map values) = unreadable selected) (hs : selected = .error e) :
    read = .error (.unreadable e) := by
  rw [hs] at h
  cases read with
  | error e' => rw [Except.error.inj h]
  | ok ys => cases h

private theorem exists_values (h : read.map (List.map values) = unreadable selected) (hs : selected = .ok lists) :
    ∃ xs : List α, lists = xs.map values := by
  rw [hs] at h
  cases read with
  | error e => cases h
  | ok ys => exact ⟨ys, (Except.ok.inj h).symm⟩

end Values

/-- The vertex table lists these rows. -/
def ListsVertices (db : Database) (V : List VertexRow) : Prop :=
  Listed db "vertices" vertexColumns (V.map VertexRow.values)

def ListsEdges (db : Database) (E : List EdgeRow) : Prop :=
  Listed db "edges" edgeColumns (E.map EdgeRow.values)

theorem ListsVertices.read (h : ListsVertices db V) : readVertices db = .ok V :=
  read_ok VertexRow.values_injective (readVertices_values db) h.select

theorem ListsEdges.read (h : ListsEdges db E) : readEdges db = .ok E :=
  read_ok EdgeRow.values_injective (readEdges_values db) h.select

/-- The table of some rows, which are numbered in their order. -/
def vertexTable (V : List VertexRow) : Table :=
  ⟨["vid", "vlabel"], V.mapIdx fun i r => ⟨i, r.values.map .integer⟩⟩

def edgeTable (E : List EdgeRow) : Table :=
  ⟨["src", "dst", "elabel", "capacity"], E.mapIdx fun i r => ⟨i, r.values.map .integer⟩⟩

theorem listsVertices_table (h : db.table? "vertices" = some (vertexTable V)) : ListsVertices db V :=
  .of_numbered h (by decide +kernel) fun _ => rfl

theorem listsEdges_table (h : db.table? "edges" = some (edgeTable E)) : ListsEdges db E :=
  .of_numbered h (by decide +kernel) fun _ => rfl

theorem loadDatabase_eq {directed : Bool} (hV : readVertices db = .ok V) (hE : readEdges db = .ok E) :
    loadDatabase db directed = load directed V E := by
  simp [loadDatabase, hV, hE]

theorem loadDatabase_tables (directed : Bool) (V : List VertexRow) (E : List EdgeRow) :
    loadDatabase ⟨[("vertices", vertexTable V), ("edges", edgeTable E)]⟩ directed = load directed V E := by
  refine loadDatabase_eq (listsVertices_table ?_).read (listsEdges_table ?_).read
  · rw [Database.table?_cons, if_pos (by decide +kernel)]
  · rw [Database.table?_cons, if_neg (by decide +kernel), Database.table?_cons, if_pos (by decide +kernel)]

theorem lists_or_unlisted (hdb : db.Numbered) :
    ((∃ V, ListsVertices db V) ∨ ∃ e, Unlisted db "vertices" vertexColumns e) ∧
      ((∃ E, ListsEdges db E) ∨ ∃ e, Unlisted db "edges" edgeColumns e) := by
  constructor
  · apply (listed_or_unlisted hdb "vertices" vertexColumns).imp_left
    intro ⟨lists, h⟩
    obtain ⟨V, rfl⟩ := exists_values (readVertices_values db) h.select
    exact ⟨V, h⟩
  · apply (listed_or_unlisted hdb "edges" edgeColumns).imp_left
    intro ⟨lists, h⟩
    obtain ⟨E, rfl⟩ := exists_values (readEdges_values db) h.select
    exact ⟨E, h⟩

/-- A database whose columns can be read is loaded as its rows are, by increasing number. Of all problems the first is
reported: one with the vertices before one with the edges, and both before what is wrong with the rows themselves. Then
no graph is begun, which a record would announce. One of the three is the case. -/
theorem loadDatabase_reads (db : Database) (hdb : db.Numbered) (directed : Bool) :
    (∀ V E, ListsVertices db V → ListsEdges db E → loadDatabase db directed = load directed V E) ∧
    (∀ e, Unlisted db "vertices" vertexColumns e → loadDatabase db directed = .error (.unreadable e) ∧
      (Command.loadGraph db directed).records = []) ∧
    (∀ V e, ListsVertices db V → Unlisted db "edges" edgeColumns e →
      loadDatabase db directed = .error (.unreadable e) ∧
      (Command.loadGraph db directed).records = [⟨.debug, .loading, s!"read {V.length} vertex records"⟩]) ∧
    ((∃ V E, ListsVertices db V ∧ ListsEdges db E) ∨ (∃ e, Unlisted db "vertices" vertexColumns e) ∨
      ∃ V e, ListsVertices db V ∧ Unlisted db "edges" edgeColumns e) := by
  refine ⟨?_, ?_, ?_, ?_⟩
  · exact fun V E hV hE => loadDatabase_eq hV.read hE.read
  · intro e he
    have hread := read_error (readVertices_values db) (he.select hdb)
    rw [loadDatabase, Command.loadGraph, hread]
    exact ⟨rfl, rfl⟩
  · intro V e hV he
    have hread := read_error (readEdges_values db) (he.select hdb)
    rw [loadDatabase, Command.loadGraph, hV.read, hread]
    exact ⟨rfl, rfl⟩
  · obtain ⟨hV | hV, hE⟩ := lists_or_unlisted hdb
    · obtain ⟨V, hV⟩ := hV
      rcases hE with ⟨E, hE⟩ | ⟨e, he⟩
      · exact .inl ⟨V, E, hV, hE⟩
      · exact .inr (.inr ⟨V, e, hV, he⟩)
    · exact .inr (.inl hV)

/-- Rows and columns are stored in other orders than they are read in, and tables under names in capitals. In the second
database the vertices have one id, and two cells of one edge and one of another are no integers. -/
theorem loadDatabase_reads_stored :
    let vertices : Table := ⟨["vlabel", "vid"], [⟨9, [.integer 20, .integer 1]⟩, ⟨-4, [.integer 10, .integer 2]⟩]⟩
    let edges : Table := ⟨["capacity", "elabel", "dst", "src"],
      [⟨7, [.integer 5, .integer 0, .integer 2, .integer 1]⟩, ⟨2, [.integer 6, .integer 0, .integer 1, .integer 1]⟩]⟩
    let twins : Table := ⟨["vid", "vlabel"], [⟨1, [.integer 1, .integer 0]⟩, ⟨2, [.integer 1, .integer 0]⟩]⟩
    let broken : Table := ⟨["capacity", "elabel", "dst", "src"],
      [⟨7, [.integer 5, .integer 0, .integer 2, .null]⟩, ⟨2, [.integer 6, .null, .text "x", .integer 1]⟩]⟩
    loadDatabase ⟨[("EDGES", edges), ("Vertices", vertices)]⟩ true =
      load true [⟨2, 10⟩, ⟨1, 20⟩] [⟨1, 1, 0, 6⟩, ⟨1, 2, 0, 5⟩] ∧
    loadDatabase ⟨[("edges", broken), ("vertices", twins)]⟩ true =
      .error (.unreadable (.invalidColumnType "Text" 1 "dst")) := by
  intro vertices edges twins broken
  constructor
  · have hdb : Database.Numbered ⟨[("EDGES", edges), ("Vertices", vertices)]⟩ :=
      Database.numbered_of_tables (by decide)
    have hvertices : vertices.Arranged vertices.rows.reverse := ⟨by decide, by decide⟩
    have hedges : edges.Arranged edges.rows.reverse := ⟨by decide, by decide⟩
    have hV : ListsVertices ⟨[("EDGES", edges), ("Vertices", vertices)]⟩ [⟨2, 10⟩, ⟨1, 20⟩] :=
      .rows (by decide +kernel) (by decide +kernel) hvertices (by decide +kernel)
    have hE : ListsEdges ⟨[("EDGES", edges), ("Vertices", vertices)]⟩ [⟨1, 1, 0, 6⟩, ⟨1, 2, 0, 5⟩] :=
      .rows (by decide +kernel) (by decide +kernel) hedges (by decide +kernel)
    exact (loadDatabase_reads _ hdb true).1 _ _ hV hE
  · have hdb : Database.Numbered ⟨[("edges", broken), ("vertices", twins)]⟩ :=
      Database.numbered_of_tables (by decide)
    have htwins : twins.Arranged twins.rows := ⟨.refl _, by decide⟩
    have hbroken : broken.Arranged broken.rows.reverse := ⟨by decide, by decide⟩
    have hV : ListsVertices ⟨[("edges", broken), ("vertices", twins)]⟩ [⟨1, 0⟩, ⟨1, 0⟩] :=
      .rows (by decide +kernel) (by decide +kernel) htwins (by decide +kernel)
    have he : broken.Unread edgeColumns (.invalidColumnType "Text" 1 "dst") := by
      have hplace : broken.position? "dst" = some 2 := by decide +kernel
      have hsrc : broken.cell? ⟨2, [.integer 6, .null, .text "x", .integer 1]⟩ "src" = some (.integer 1) := by
        decide +kernel
      have hdst : broken.cell? ⟨2, [.integer 6, .null, .text "x", .integer 1]⟩ "dst" = some (.text "x") := by
        decide +kernel
      refine .badCell (k := 0) (i := 1) (by decide +kernel) hbroken rfl nofun rfl ?_ hplace hdst nofun
      intro j hj d hd
      obtain rfl : j = 0 := by omega
      cases hd
      exact ⟨1, hsrc⟩
    exact ((loadDatabase_reads _ hdb true).2.2.1 _ _ hV (.unread (by decide +kernel) he)).1

end GraphViews.Record
