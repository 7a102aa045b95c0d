import GraphViews.Tables.Table

/-!
# Reading columns of a table

The columns that are read are looked up first, in the order of the selection. Only integers can be read.
-/

namespace GraphViews.Tables

inductive DatabaseError where
  | noSuchTable (table : String)
  | noSuchColumn (column : String)
  | invalidColumnType (typeName : String) (index : Nat) (column : String)
  deriving DecidableEq

def DatabaseError.message : DatabaseError → String
  | noSuchTable t => s!"no such table: {t}"
  | noSuchColumn c => s!"no such column: {c}"
  | invalidColumnType t i c => s!"Invalid column type {t} at index: {i}, name: {c}"

def Database.find (db : Database) (name : String) : Except DatabaseError Table :=
  match db.table? name with
  | some t => .ok t
  | none => .error (.noSuchTable name)

namespace Table

/-- The place of a column in the table. -/
def locate (t : Table) (column : String) : Except DatabaseError Nat :=
  match t.position? column with
  | some i => .ok i
  | none => .error (.noSuchColumn column)

/-- The integer at `place` of a row, which is column `index` of the selection. -/
def integer (t : Table) (r : Row) (index place : Nat) : Except DatabaseError Int64 :=
  match r.cells.getD place .null with
  | .integer x => .ok x
  | c => .error (.invalidColumnType c.typeName index (t.columns.getD place ""))

end Table

end GraphViews.Tables
