import GraphViews.Tables.Table
import GraphViews.Decimal

/-!
# Databases written as text

A table is a line with its name and its columns, and a line for every row in order; an empty line ends it.
A cell is a number, `null`, or a word, and blanks stand between the cells. A number that is no integer, or is out of the
range of integers, is a real.
-/

namespace GraphViews.Tables

namespace Listing

def words (line : String) : List String :=
  (line.splitOn " ").filter (· ≠ "")

def readCell (word : String) : Cell :=
  match Decimal.read? word, Decimal.Numeral.read? word with
  | some n, _ => .integer n
  | none, some x => .ofNumeral x
  | none, none => if word = "null" then .null else .text word

def isRow (line : List String) : Bool := !line.isEmpty

def readTable (columns : List String) (lines : List (List String)) : Table :=
  ⟨columns, lines.mapIdx fun i cells => ⟨(i : Int) + 1, cells.map readCell⟩⟩

def readTables : List (List String) → List (String × Table)
  | [] => []
  | [] :: rest => readTables rest
  | (name :: columns) :: rest =>
    (name, readTable columns (rest.takeWhile isRow)) :: readTables (rest.dropWhile isRow)
termination_by lines => lines.length
decreasing_by
  · simp
  · have := (List.dropWhile_sublist (l := rest) isRow).length_le
    simp
    omega

end Listing

def Database.ofListing (text : String) : Database :=
  ⟨Listing.readTables ((text.splitOn "\n").map Listing.words)⟩

end GraphViews.Tables
