import GraphViews.Filter.Term
import GraphViews.Record.Snapshot

/-! # Ruled tables of records, with numbers flush right -/

namespace GraphViews.Record

namespace Grid

def cellWidth : Nat := 12

/-- Longer text is not cut. -/
def cell (s : String) : List Char :=
  List.replicate (cellWidth - s.length) ' ' ++ s.toList ++ [' ']

def line (border separator : Char) (cells : List (List Char)) : List Char :=
  border :: List.intercalate [separator] cells ++ [border, '\n']

def rule (columns : Nat) : List Char :=
  line '+' '+' (List.replicate columns (List.replicate (cellWidth + 1) '-'))

def row (values : List Int64) : List Char :=
  line '|' '|' (values.map fun x => cell (toString x))

def table (fields : List String) (rows : List (List Int64)) : List Char :=
  rule fields.length ++ line '|' '|' (fields.map cell) ++ rule fields.length ++
    rows.flatMap row ++ rule fields.length

end Grid

def Snapshot.text (s : Snapshot) : String :=
  String.ofList
    (Grid.table Filter.Context.vertex.fields (s.vertices.map VertexRow.values) ++
      Grid.table Filter.Context.edge.fields (s.edges.map EdgeRow.values))

end GraphViews.Record
