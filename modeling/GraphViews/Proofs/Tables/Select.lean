import GraphViews.Proofs.Fallible
import GraphViews.Tables.Selection
import Mathlib.Data.List.Forall2
import Mathlib.Data.List.Sort

/-!
# What a selection reads

The columns of a table are read row by row, the rows by increasing number. Which order the rows and the columns are
stored in does not count. What fails is first the table, then the first column, then the first cell of the first row.
-/

namespace GraphViews.Fallible

variable {ε α β : Type}

theorem mapM_eq_ok_iff {f : α → Except ε β} {xs : List α} {ys : List β} :
    xs.mapM f = .ok ys ↔ List.Forall₂ (fun x y => f x = .ok y) xs ys := by
  induction xs generalizing ys with
  | nil =>
    constructor
    · intro h
      cases h
      exact .nil
    · intro h
      cases h
      rfl
  | cons x xs ih =>
    simp only [mapM_cons_eq_ok, List.forall₂_cons_left_iff, ih]

private theorem forall₂_zipIdx {R : α → β → Prop} {xs : List α} {ys : List β} :
    List.Forall₂ (fun p y => R p.1 y) xs.zipIdx ys ↔ List.Forall₂ R xs ys := by
  have h := List.forall₂_map_left_iff (R := R) (f := Prod.fst) (l := xs.zipIdx) (u := ys)
  rw [List.zipIdx_map_fst] at h
  exact h.symm

end GraphViews.Fallible

namespace GraphViews.Tables

open Fallible

namespace Table

def cell? (t : Table) (r : Row) (column : String) : Option Cell :=
  (t.position? column).map fun place => r.cells.getD place .null

/-- The rows of the table by increasing number. -/
structure Arranged (t : Table) (rs : List Row) : Prop where
  perm : rs.Perm t.rows
  increasing : rs.Pairwise fun r s => r.number < s.number

/-- The table has all the columns. -/
def HasColumns (t : Table) (columns : List String) : Prop := ∀ c ∈ columns, (t.position? c).isSome

def RowReads (t : Table) (columns : List String) (r : Row) (xs : List Int64) : Prop :=
  List.Forall₂ (fun c x => t.cell? r c = some (.integer x)) columns xs

instance (t : Table) (columns : List String) : Decidable (t.HasColumns columns) :=
  inferInstanceAs (Decidable (∀ c ∈ columns, (t.position? c).isSome))

instance (t : Table) (columns : List String) : DecidableRel (t.RowReads columns) := fun r xs =>
  inferInstanceAs (Decidable (List.Forall₂ (fun c x => t.cell? r c = some (.integer x)) columns xs))

/-- What keeps columns of the table from being read, the first in the order of the columns, then of the rows, and then
of the cells of a row. -/
inductive Unread (t : Table) (columns : List String) : DatabaseError → Prop where
  | noColumn {i : Nat} {c : String} (hc : columns[i]? = some c) (hnone : t.position? c = none)
      (hbefore : ∀ j < i, ∀ d, columns[j]? = some d → (t.position? d).isSome) : Unread t columns (.noSuchColumn c)
  | badCell {rs : List Row} {r : Row} {k i place : Nat} {c : String} {cell : Cell} (hfound : t.HasColumns columns)
      (hrs : t.Arranged rs) (hr : rs[k]? = some r)
      (hrows : ∀ j < k, ∀ s, rs[j]? = some s → ∃ xs, t.RowReads columns s xs)
      (hc : columns[i]? = some c) (hcells : ∀ j < i, ∀ d, columns[j]? = some d → ∃ x, t.cell? r d = some (.integer x))
      (hplace : t.position? c = some place) (hcell : t.cell? r c = some cell) (hbad : ∀ x, cell ≠ .integer x) :
      Unread t columns (.invalidColumnType cell.typeName i (t.columns.getD place ""))

end Table

/-- The columns of the table with this name are read as these integers, row by row. -/
inductive Listed (db : Database) (name : String) (columns : List String) : List (List Int64) → Prop where
  | rows {t : Table} {rs : List Row} {values : List (List Int64)} (ht : db.table? name = some t)
      (hfound : t.HasColumns columns) (hrs : t.Arranged rs) (hvalues : List.Forall₂ (t.RowReads columns) rs values) :
      Listed db name columns values

inductive Unlisted (db : Database) (name : String) (columns : List String) : DatabaseError → Prop where
  | noTable (h : db.table? name = none) : Unlisted db name columns (.noSuchTable name)
  | unread {t : Table} {e : DatabaseError} (ht : db.table? name = some t) (he : t.Unread columns e) :
      Unlisted db name columns e

/-- The rows of one table have numbers of their own. -/
def Database.Numbered (db : Database) : Prop :=
  ∀ name t, db.table? name = some t → (t.rows.map Row.number).Nodup

theorem Database.table?_cons (n name : String) (t : Table) (tables : List (String × Table)) :
    (Database.mk ((n, t) :: tables)).table? name =
      if sameName n name then some t else (Database.mk tables).table? name := by
  rw [table?, List.find?_cons]
  cases sameName n name <;> rfl

theorem Database.numbered_of_tables {db : Database} (h : ∀ p ∈ db.tables, (p.2.rows.map Row.number).Nodup) :
    db.Numbered := by
  intro name t ht
  obtain ⟨p, hp, rfl⟩ := Option.map_eq_some_iff.mp ht
  exact h p (List.mem_of_find?_eq_some hp)

namespace Table

variable {t : Table} {rs : List Row} {r : Row} {columns : List String}

theorem perm_ordered (t : Table) : t.ordered.Perm t.rows := List.mergeSort_perm t.rows _

private theorem pairwise_ordered (t : Table) : t.ordered.Pairwise fun r s => r.number ≤ s.number := by
  let le (r s : Row) : Bool := r.number ≤ s.number
  have htrans (a b c : Row) (hab : le a b = true) (hbc : le b c = true) : le a c = true := by
    simp only [le, decide_eq_true_eq] at hab hbc ⊢
    omega
  have htotal (a b : Row) : (le a b || le b a) = true := by
    simp only [le, Bool.or_eq_true, decide_eq_true_eq]
    omega
  exact (List.pairwise_mergeSort htrans htotal t.rows).imp of_decide_eq_true

theorem Arranged.nodup (h : t.Arranged rs) : (rs.map Row.number).Nodup :=
  List.pairwise_map.mpr (h.increasing.imp Int.ne_of_lt)

/-- There is one way to list rows by increasing number. -/
theorem Arranged.ordered_eq (h : t.Arranged rs) : t.ordered = rs := by
  have hperm : t.ordered.Perm rs := t.perm_ordered.trans h.perm.symm
  have hle : rs.Pairwise fun r s => r.number ≤ s.number := h.increasing.imp Int.le_of_lt
  refine hperm.eq_of_pairwise ?_ t.pairwise_ordered hle
  intro r s hr hs hrs hsr
  exact List.inj_on_of_nodup_map h.nodup (hperm.mem_iff.mp hr) hs (Int.le_antisymm hrs hsr)

theorem arranged_ordered (h : (t.rows.map Row.number).Nodup) : t.Arranged t.ordered where
  perm := t.perm_ordered
  increasing := by
    have hnodup := (t.perm_ordered.map Row.number).nodup_iff.mpr h
    have hlt := t.pairwise_ordered.and (List.pairwise_map.mp hnodup)
    exact hlt.imp fun h => lt_of_le_of_ne h.1 h.2

/-- The integers of a row in some columns. -/
def read (t : Table) (columns : List String) (r : Row) : Except DatabaseError (List Int64) :=
  columns.zipIdx.mapM fun p => do t.integer r p.2 (← t.locate p.1)

/-- The integers in some columns, row by row. All columns are looked up before the first row. -/
def select (t : Table) (columns : List String) : Except DatabaseError (List (List Int64)) := do
  let _ ← columns.mapM t.locate
  t.ordered.mapM (t.read columns)

variable {column : String} {place index : Nat} {x : Int64} {xs : List Int64} {values : List (List Int64)}
  {e : DatabaseError}

theorem locate_eq_ok : t.locate column = .ok place ↔ t.position? column = some place := by
  unfold locate
  cases t.position? column <;> simp

theorem locate_eq_error : t.locate column = .error e ↔ t.position? column = none ∧ e = .noSuchColumn column := by
  unfold locate
  cases t.position? column <;> simp [eq_comm]

theorem integer_eq_ok : t.integer r index place = .ok x ↔ r.cells.getD place .null = .integer x := by
  unfold integer
  cases r.cells.getD place .null <;> simp

theorem integer_eq_error : t.integer r index place = .error e ↔
    (∀ x, r.cells.getD place .null ≠ .integer x) ∧
      e = .invalidColumnType (r.cells.getD place .null).typeName index (t.columns.getD place "") := by
  unfold integer
  cases r.cells.getD place .null <;> simp [eq_comm]

theorem locate_columns_error : columns.mapM t.locate = .error e ↔ ∃ (i : Nat) (c : String), columns[i]? = some c ∧
    t.position? c = none ∧ e = .noSuchColumn c ∧ ∀ j < i, ∀ d, columns[j]? = some d → (t.position? d).isSome := by
  simp only [mapM_eq_error, locate_eq_error, locate_eq_ok, Option.isSome_iff_exists, and_assoc]

theorem hasColumns_iff : t.HasColumns columns ↔ ∃ places, columns.mapM t.locate = .ok places := by
  constructor
  · intro h
    cases hp : columns.mapM t.locate with
    | ok places => exact ⟨places, rfl⟩
    | error e =>
      obtain ⟨i, c, hc, hnone, -⟩ := locate_columns_error.mp hp
      have hfound := h c (List.mem_of_getElem? hc)
      rw [hnone] at hfound
      cases hfound
  · intro ⟨places, hp⟩ c hc
    obtain ⟨place, -, hplace⟩ := mem_of_mapM hp hc
    rw [locate_eq_ok.mp hplace]
    rfl

private theorem cell?_eq_integer : t.cell? r column = some (.integer x) ↔
    (do t.integer r index (← t.locate column)) = .ok x := by
  rw [bind_eq_ok, cell?, Option.map_eq_some_iff]
  simp only [locate_eq_ok, integer_eq_ok]

theorem read_eq_ok : t.read columns r = .ok xs ↔ t.RowReads columns r xs := by
  simp only [read, mapM_eq_ok_iff, ← cell?_eq_integer]
  exact forall₂_zipIdx (R := fun c x => t.cell? r c = some (.integer x))

/-- The cells of a row are read in the order of the columns, and the first that is no integer is named. -/
theorem read_eq_error (h : t.HasColumns columns) : t.read columns r = .error e ↔
    ∃ (i place : Nat) (c : String) (cell : Cell), columns[i]? = some c ∧ t.position? c = some place ∧
      t.cell? r c = some cell ∧ (∀ x, cell ≠ .integer x) ∧
      e = .invalidColumnType cell.typeName i (t.columns.getD place "") ∧
      ∀ j < i, ∀ d, columns[j]? = some d → ∃ x, t.cell? r d = some (.integer x) := by
  rw [read, mapM_eq_error]
  constructor
  · intro ⟨i, p, hp, he, hbefore⟩
    rw [List.getElem?_zipIdx, Option.map_eq_some_iff] at hp
    obtain ⟨c, hc, rfl⟩ := hp
    obtain ⟨place, hplace⟩ := Option.isSome_iff_exists.mp (h c (List.mem_of_getElem? hc))
    rw [locate_eq_ok.mpr hplace, ok_bind, integer_eq_error] at he
    refine ⟨i, place, c, _, hc, hplace, by rw [cell?, hplace]; rfl, he.1, by simpa using he.2, ?_⟩
    intro j hj d hd
    obtain ⟨x, hx⟩ := hbefore j hj (d, j) (by simp [List.getElem?_zipIdx, hd])
    exact ⟨x, cell?_eq_integer.mpr hx⟩
  · intro ⟨i, place, c, cell, hc, hplace, hcell, hbad, he, hbefore⟩
    refine ⟨i, (c, i), by simp [List.getElem?_zipIdx, hc], ?_, ?_⟩
    · rw [cell?, hplace, Option.map_some, Option.some.injEq] at hcell
      rw [locate_eq_ok.mpr hplace, ok_bind, integer_eq_error, hcell]
      exact ⟨hbad, he⟩
    · intro j hj p hp
      rw [List.getElem?_zipIdx, Option.map_eq_some_iff] at hp
      obtain ⟨d, hd, rfl⟩ := hp
      obtain ⟨x, hx⟩ := hbefore j hj d hd
      exact ⟨x, cell?_eq_integer.mp hx⟩

theorem select_eq_ok (hrs : t.Arranged rs) : t.select columns = .ok values ↔
    t.HasColumns columns ∧ List.Forall₂ (t.RowReads columns) rs values := by
  rw [select, hrs.ordered_eq, bind_eq_ok, hasColumns_iff, mapM_eq_ok_iff]
  simp only [read_eq_ok, exists_and_right]

theorem select_eq_error (hrs : t.Arranged rs) : t.select columns = .error e ↔ t.Unread columns e := by
  rw [select, hrs.ordered_eq, bind_eq_error]
  constructor
  · rintro (h | ⟨places, hp, h⟩)
    · obtain ⟨i, c, hc, hnone, rfl, hbefore⟩ := locate_columns_error.mp h
      exact .noColumn hc hnone hbefore
    · have hfound := hasColumns_iff.mpr ⟨places, hp⟩
      obtain ⟨k, r, hr, he, hrows⟩ := mapM_eq_error.mp h
      obtain ⟨i, place, c, cell, hc, hplace, hcell, hbad, rfl, hcells⟩ := (read_eq_error hfound).mp he
      simp only [read_eq_ok] at hrows
      exact .badCell hfound hrs hr hrows hc hcells hplace hcell hbad
  · intro h
    cases h with
    | noColumn hc hnone hbefore => exact .inl (locate_columns_error.mpr ⟨_, _, hc, hnone, rfl, hbefore⟩)
    | badCell hfound hrs' hr hrows hc hcells hplace hcell hbad =>
      obtain ⟨places, hp⟩ := hasColumns_iff.mp hfound
      rw [← hrs.ordered_eq, hrs'.ordered_eq]
      refine .inr ⟨places, hp, mapM_eq_error.mpr ⟨_, _, hr, ?_, ?_⟩⟩
      · exact (read_eq_error hfound).mpr ⟨_, _, _, _, hc, hplace, hcell, hbad, rfl, hcells⟩
      · simpa only [read_eq_ok] using hrows

end Table

variable {db : Database} {name : String} {columns : List String} {values : List (List Int64)} {e : DatabaseError}

def Database.select (db : Database) (name : String) (columns : List String) :
    Except DatabaseError (List (List Int64)) := do
  (← db.find name).select columns

theorem Database.find_eq_ok {t : Table} : db.find name = .ok t ↔ db.table? name = some t := by
  unfold find
  cases db.table? name <;> simp

theorem Listed.select (h : Listed db name columns values) : db.select name columns = .ok values := by
  cases h with
  | rows ht hfound hrs hvalues =>
    rw [Database.select, Database.find_eq_ok.mpr ht, ok_bind]
    exact (Table.select_eq_ok hrs).mpr ⟨hfound, hvalues⟩

theorem Unlisted.select (hdb : db.Numbered) (h : Unlisted db name columns e) : db.select name columns = .error e := by
  cases h with
  | noTable h => simp [Database.select, Database.find, h]
  | unread ht he =>
    rw [Database.select, Database.find_eq_ok.mpr ht, ok_bind]
    exact (Table.select_eq_error (Table.arranged_ordered (hdb name _ ht))).mpr he

private theorem position?_of_columns (rows : List Row)
    (h : columns.map (Table.mk columns []).position? = (List.range columns.length).map some) {i : Nat} {c : String}
    (hc : columns[i]? = some c) : (Table.mk columns rows).position? c = some i := by
  have hi : i < columns.length := (List.getElem?_eq_some_iff.mp hc).1
  have hplace : (Table.mk columns []).position? c = some i := by
    simpa [hc, List.getElem?_range hi] using congrArg (fun places => places[i]?) h
  exact hplace

private theorem rowReads_of_columns (rows : List Row)
    (h : columns.map (Table.mk columns []).position? = (List.range columns.length).map some) {xs : List Int64}
    (hxs : xs.length = columns.length) (number : Int) :
    (Table.mk columns rows).RowReads columns ⟨number, xs.map .integer⟩ xs := by
  refine List.forall₂_iff_get.mpr ⟨hxs.symm, ?_⟩
  intro i hi hi'
  have hplace := position?_of_columns rows h (List.getElem?_eq_getElem hi)
  rw [List.get_eq_getElem, Table.cell?, hplace]
  simp [hi']

/-- A table of lists that are numbered in their order is read as the lists. -/
theorem Listed.of_numbered {α : Type} {lists : α → List Int64} {xs : List α}
    (ht : db.table? name = some ⟨columns, xs.mapIdx fun i x => ⟨i, (lists x).map .integer⟩⟩)
    (hcolumns : columns.map (Table.mk columns []).position? = (List.range columns.length).map some)
    (hlists : ∀ x, (lists x).length = columns.length) : Listed db name columns (xs.map lists) := by
  refine .rows ht ?_ ⟨.refl _, ?_⟩ ?_
  · intro c hc
    obtain ⟨i, hi⟩ := List.getElem?_of_mem hc
    rw [position?_of_columns _ hcolumns hi]
    rfl
  · rw [List.pairwise_iff_getElem]
    intro i j hi hj hij
    rw [List.getElem_mapIdx, List.getElem_mapIdx]
    exact Int.ofNat_lt.mpr hij
  · refine List.forall₂_iff_get.mpr ⟨by simp, ?_⟩
    intro i hi hi'
    simp only [List.get_eq_getElem, List.getElem_mapIdx, List.getElem_map]
    exact rowReads_of_columns _ hcolumns (hlists _) _

/-- Columns are either listed, or something keeps them from being read. -/
theorem listed_or_unlisted (hdb : db.Numbered) (name : String) (columns : List String) :
    (∃ values, Listed db name columns values) ∨ ∃ e, Unlisted db name columns e := by
  cases ht : db.table? name with
  | none => exact .inr ⟨_, .noTable ht⟩
  | some t =>
    have hrs := Table.arranged_ordered (hdb name t ht)
    cases hs : t.select columns with
    | ok values =>
      obtain ⟨hfound, hvalues⟩ := (Table.select_eq_ok hrs).mp hs
      exact .inl ⟨values, .rows ht hfound hrs hvalues⟩
    | error e => exact .inr ⟨e, .unread ht ((Table.select_eq_error hrs).mp hs)⟩

end GraphViews.Tables
