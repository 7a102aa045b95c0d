import GraphViews.Decimal.Numeral

/-!
# Tables of a database

The part of SQLite and of its reader rusqlite that the loader relies on. Names are matched without regard to the case of
ASCII letters. The number of a row is its rowid, by which a selection is ordered, so that there are no views and no
tables `WITHOUT ROWID` here.
-/

namespace GraphViews.Tables

/-- A cell keeps the type that it was stored with; a real is the word of a double. -/
inductive Cell where
  | integer (n : Int64)
  | null
  | text (s : String)
  | real (word : UInt64)
  | blob (bytes : List UInt8)
  deriving DecidableEq

/-- What is no number is not stored as a real. -/
def Cell.ofNumeral (x : Decimal.Numeral) : Cell :=
  if x.magnitude = .undefined then null else real x.word

def Cell.typeName : Cell → String
  | integer _ => "Integer"
  | null => "Null"
  | text _ => "Text"
  | real _ => "Real"
  | blob _ => "Blob"

structure Row where
  number : Int
  cells : List Cell
  deriving DecidableEq

structure Table where
  columns : List String
  rows : List Row
  deriving DecidableEq

def sameName (a b : String) : Bool := a.toList.map Char.toLower = b.toList.map Char.toLower

def Table.position? (t : Table) (column : String) : Option Nat :=
  t.columns.findIdx? fun c => sameName c column

/-- The rows by increasing number. -/
def Table.ordered (t : Table) : List Row :=
  t.rows.mergeSort fun r s => r.number ≤ s.number

structure Database where
  tables : List (String × Table)
  deriving DecidableEq

def Database.table? (db : Database) (name : String) : Option Table :=
  (db.tables.find? fun t => sameName t.1 name).map Prod.snd

end GraphViews.Tables
