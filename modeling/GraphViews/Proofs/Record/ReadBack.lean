import GraphViews.Proofs.Filter.Alternatives
import GraphViews.Record.Grid

/-!
# Reading tables back

Two tables stand in a text one below the other, without a count of their rows, and a number that is too wide for its
cell is not cut. The text can be read back all the same: lines are told apart by the characters that they begin with,
cells by those between them, and none of these is part of a number.
-/

namespace GraphViews.Record

namespace Grid

def number? (cell : List Char) : Option Int64 := Decimal.read? (String.ofList (cell.filter (· ≠ ' ')))

/-- What stands between the separators of a line, inside its border. -/
def cells (line : List Char) : List (List Char) := (line.splitOn '|').tail.dropLast

def numbers? (line : List Char) : Option (List Int64) := (cells line).mapM number?

def isRule (line : List Char) : Bool := line.head? = some '+'

/-- The lines of a text between its rules. -/
def blocks (text : List Char) : List (List (List Char)) := (text.splitOn '\n').splitOnP isRule

end Grid

def VertexRow.ofLine? (line : List Char) : Option VertexRow :=
  match Grid.numbers? line with
  | some [vid, vlabel] => some ⟨vid, vlabel⟩
  | _ => none

def EdgeRow.ofLine? (line : List Char) : Option EdgeRow :=
  match Grid.numbers? line with
  | some [src, dst, elabel, capacity] => some ⟨src, dst, elabel, capacity⟩
  | _ => none

/-- The snapshot of a text. Of the three rules of a table, the first two are around its fields and the last two around
its rows. -/
def Snapshot.ofText? (text : String) : Option Snapshot :=
  match Grid.blocks text.toList with
  | [_, _, vertices, _, _, edges, _] => do
    return ⟨← vertices.mapM VertexRow.ofLine?, ← edges.mapM EdgeRow.ofLine?⟩
  | _ => none

/-- Where each part is read as what it was written for, so are all of them. -/
theorem mapM_map_of_inverse {α β : Type} {write : α → β} {read? : β → Option α} (h : ∀ x, read? (write x) = some x)
    (xs : List α) : (xs.map write).mapM read? = some xs := by
  induction xs with
  | nil => rfl
  | cons x xs ih =>
    rw [List.map_cons, List.mapM_cons, h, ih]
    rfl

namespace Grid

/-- A number is written with digits and a minus sign. -/
theorem not_mem_toString {c : Char} (hc : c.isDigit = false ∧ c ≠ '-') (n : Int64) : c ∉ (toString n).toList := by
  have hchars : (toString n).toList = (Filter.Literal.ofInt n.toInt).chars :=
    (Filter.Literal.chars_ofInt n.toInt).symm
  rw [hchars, Filter.Literal.chars]
  have hdigits : c ∉ (Filter.Literal.ofInt n.toInt).digits := by
    intro h
    cases hc.1.symm.trans ((Filter.Literal.ofInt n.toInt).decimal c h)
  split
  · exact List.not_mem_cons_of_ne_of_not_mem hc.2 hdigits
  · exact hdigits

private theorem not_mem_cell {c : Char} (hc : c ≠ ' ') {s : String} (h : c ∉ s.toList) : c ∉ cell s := by
  simp [cell, hc, h]

private theorem not_mem_numbers {c : Char} (hblank : c ≠ ' ') (hc : c.isDigit = false ∧ c ≠ '-') (values : List Int64) :
    ∀ s ∈ values.map fun x => cell (toString x), c ∉ s := by
  rw [List.forall_mem_map]
  exact fun x _ => not_mem_cell hblank (not_mem_toString hc x)

theorem number?_cell (n : Int64) : number? (cell (toString n)) = some n := by
  have hnumber : (toString n).toList.filter (· ≠ ' ') = (toString n).toList := by
    rw [List.filter_eq_self]
    intro c hc
    apply decide_eq_true
    rintro rfl
    exact not_mem_toString (by decide) n hc
  have hcell : (cell (toString n)).filter (· ≠ ' ') = (toString n).toList := by
    rw [cell, List.filter_append, List.filter_append, hnumber, List.filter_replicate_of_neg (by decide)]
    simp
  rw [number?, hcell, String.ofList_toList, Filter.read?_toString]

def bordered (border separator : Char) (cells : List (List Char)) : List Char :=
  border :: List.intercalate [separator] cells ++ [border]

private theorem line_eq (border separator : Char) (cells : List (List Char)) :
    line border separator cells = bordered border separator cells ++ ['\n'] := by
  simp [line, bordered]

private theorem not_mem_intercalate {c separator : Char} (hc : c ≠ separator) {cells : List (List Char)}
    (h : ∀ cell ∈ cells, c ∉ cell) : c ∉ List.intercalate [separator] cells := by
  induction cells with
  | nil => simp
  | cons cell cells ih =>
    obtain ⟨hcell, hcells⟩ := List.forall_mem_cons.mp h
    cases cells with
    | nil => simpa using hcell
    | cons cell' cells =>
      rw [List.intercalate_cons_cons]
      simp [hc, hcell, ih hcells]

private theorem not_mem_bordered {c border separator : Char} (hb : c ≠ border) (hs : c ≠ separator)
    {cells : List (List Char)} (h : ∀ cell ∈ cells, c ∉ cell) : c ∉ bordered border separator cells := by
  simp [bordered, hb, not_mem_intercalate hs h]

theorem cells_bordered {cs : List (List Char)} (hne : cs ≠ []) (h : ∀ cell ∈ cs, '|' ∉ cell) :
    cells (bordered '|' '|' cs) = cs := by
  have hsplit : (bordered '|' '|' cs).splitOn '|' = [] :: (cs ++ [[]]) := by
    have hinner : (List.intercalate ['|'] cs ++ ['|']).splitOn '|' = cs ++ [[]] := by
      rw [List.splitOn_append_cons_self, List.splitOn_intercalate _ h hne, List.splitOn_nil]
    rw [bordered, ← hinner]
    exact List.splitOn_append_cons_self [] _
  rw [cells, hsplit, List.tail_cons, List.dropLast_concat]

def rowLine (values : List Int64) : List Char := bordered '|' '|' (values.map fun x => cell (toString x))

theorem numbers?_rowLine {values : List Int64} (hne : values ≠ []) : numbers? (rowLine values) = some values := by
  have hcells : cells (rowLine values) = values.map fun x => cell (toString x) :=
    cells_bordered (mt List.map_eq_nil_iff.mp hne) (not_mem_numbers (by decide) (by decide) values)
  rw [numbers?, hcells, mapM_map_of_inverse number?_cell]

private theorem splitOn_line {border separator : Char} (hb : '\n' ≠ border) (hs : '\n' ≠ separator)
    {cells : List (List Char)} (h : ∀ cell ∈ cells, '\n' ∉ cell) (rest : List Char) :
    (line border separator cells ++ rest).splitOn '\n' = bordered border separator cells :: rest.splitOn '\n' := by
  rw [line_eq, List.append_assoc, List.singleton_append,
    List.splitOn_append_cons_self_of_not_mem (not_mem_bordered hb hs h)]

private theorem splitOn_rows (rows : List (List Int64)) (rest : List Char) :
    (rows.flatMap row ++ rest).splitOn '\n' = rows.map rowLine ++ rest.splitOn '\n' := by
  induction rows with
  | nil => rfl
  | cons values rows ih =>
    have hvalues := not_mem_numbers (c := '\n') (by decide) (by decide) values
    rw [List.flatMap_cons, List.append_assoc, row, splitOn_line (by decide) (by decide) hvalues, ih]
    rfl

def ruleLine (columns : Nat) : List Char :=
  bordered '+' '+' (List.replicate columns (List.replicate (cellWidth + 1) '-'))

private theorem splitOn_rule (columns : Nat) (rest : List Char) :
    (rule columns ++ rest).splitOn '\n' = ruleLine columns :: rest.splitOn '\n' := by
  refine splitOn_line (by decide) (by decide) ?_ rest
  intro cell hcell
  rw [List.eq_of_mem_replicate hcell]
  simp

private theorem splitOn_fields {fields : List String} (hfields : ∀ f ∈ fields, '\n' ∉ f.toList) (rest : List Char) :
    (line '|' '|' (fields.map cell) ++ rest).splitOn '\n' =
      bordered '|' '|' (fields.map cell) :: rest.splitOn '\n' := by
  refine splitOn_line (by decide) (by decide) ?_ rest
  simp only [List.forall_mem_map]
  exact fun f hf => not_mem_cell (by decide) (hfields f hf)

private theorem splitOnP_rule {lines : List (List Char)} (h : ∀ l ∈ lines, isRule l = false) (columns : Nat)
    (rest : List (List Char)) :
    (lines ++ ruleLine columns :: rest).splitOnP isRule = lines :: rest.splitOnP isRule :=
  List.splitOnP_append_cons_of_forall_mem h _ rfl rest

/-- A table has its fields and its rows between its rules, whatever is below it. -/
theorem blocks_table {fields : List String} (hfields : ∀ f ∈ fields, '\n' ∉ f.toList) (rows : List (List Int64))
    (rest : List Char) :
    blocks (table fields rows ++ rest) =
      [] :: [bordered '|' '|' (fields.map cell)] :: rows.map rowLine :: blocks rest := by
  have hlines : (table fields rows ++ rest).splitOn '\n' =
      [] ++ ruleLine fields.length :: ([bordered '|' '|' (fields.map cell)] ++ ruleLine fields.length ::
        (rows.map rowLine ++ ruleLine fields.length :: rest.splitOn '\n')) := by
    simp only [table, List.append_assoc]
    rw [splitOn_rule, splitOn_fields hfields, splitOn_rule, splitOn_rows, splitOn_rule]
    rfl
  -- The rows end at the first rule below them, since a row begins with another sign, however many there are.
  have hrows : ∀ l ∈ rows.map rowLine, isRule l = false := by
    simp only [List.forall_mem_map]
    exact fun _ _ => rfl
  rw [blocks, hlines, splitOnP_rule (List.forall_mem_nil _), splitOnP_rule (List.forall_mem_singleton.mpr rfl),
    splitOnP_rule hrows]
  rfl

theorem blocks_of_not_mem {text : List Char} (h : ∀ l ∈ text.splitOn '\n', isRule l = false) :
    blocks text = [text.splitOn '\n'] :=
  List.splitOnP_eq_singleton h

end Grid

open Grid

theorem VertexRow.ofLine?_rowLine (r : VertexRow) : ofLine? (rowLine r.values) = some r := by
  have hne : r.values ≠ [] := List.cons_ne_nil _ _
  rw [ofLine?, numbers?_rowLine hne]
  rfl

theorem EdgeRow.ofLine?_rowLine (r : EdgeRow) : ofLine? (rowLine r.values) = some r := by
  have hne : r.values ≠ [] := List.cons_ne_nil _ _
  rw [ofLine?, numbers?_rowLine hne]
  rfl

theorem Snapshot.blocks_text (s : Snapshot) (rest : List Char) :
    blocks (s.text.toList ++ rest) =
      [] :: [bordered '|' '|' (Filter.Context.vertex.fields.map cell)] ::
        (s.vertices.map VertexRow.values).map rowLine ::
        [] :: [bordered '|' '|' (Filter.Context.edge.fields.map cell)] ::
        (s.edges.map EdgeRow.values).map rowLine :: blocks rest := by
  have hfields (c : Filter.Context) : ∀ f ∈ c.fields, '\n' ∉ f.toList := by
    cases c <;> decide +kernel
  rw [text, String.toList_ofList, List.append_assoc, blocks_table (hfields .vertex), blocks_table (hfields .edge)]

/-- What follows the tables does not count, as long as it has no rule. -/
theorem Snapshot.ofText?_append (s : Snapshot) {rest : String}
    (hrest : ∀ l ∈ rest.toList.splitOn '\n', isRule l = false) : ofText? (s.text ++ rest) = some s := by
  have hV : ((s.vertices.map VertexRow.values).map rowLine).mapM VertexRow.ofLine? = some s.vertices := by
    rw [List.map_map]
    exact mapM_map_of_inverse VertexRow.ofLine?_rowLine s.vertices
  have hE : ((s.edges.map EdgeRow.values).map rowLine).mapM EdgeRow.ofLine? = some s.edges := by
    rw [List.map_map]
    exact mapM_map_of_inverse EdgeRow.ofLine?_rowLine s.edges
  simp only [ofText?, String.toList_append, blocks_text, blocks_of_not_mem hrest, hV, hE]
  rfl

theorem Snapshot.ofText?_text (s : Snapshot) : ofText? s.text = some s := by
  have hrest : ∀ l ∈ "".toList.splitOn '\n', isRule l = false := by decide
  have h := s.ofText?_append hrest
  rwa [String.append_empty] at h

private theorem Summary.not_mem_text {c : Char} (hdigit : c.isDigit = false) (hword : c ∉ "/ vertices, edges".toList)
    (t : Summary) : c ∉ t.text.toList := by
  have hnumber (n : Nat) : c ∉ (toString n).toList := by
    intro h
    rw [Nat.toString_eq_repr, Nat.toList_repr] at h
    cases hdigit.symm.trans (Nat.isDigit_of_mem_toDigits (by decide) (by decide) h)
  have hpart (w : String) (hw : w.toList.all "/ vertices, edges".toList.contains = true) : c ∉ (toString w).toList :=
    fun h => hword (List.contains_iff_mem.mp (List.all_eq_true.mp hw c h))
  simp only [text, String.toList_append, List.mem_append, not_or, and_assoc]
  exact ⟨hnumber _, hpart _ (by decide +kernel), hnumber _, hpart _ (by decide +kernel), hnumber _,
    hpart _ (by decide +kernel), hnumber _, hpart _ (by decide +kernel)⟩

/-- What a command prints is read back as well: a summary stands below its tables. -/
theorem Snapshot.ofText?_summary (s : Snapshot) (t : Summary) : ofText? (s.text ++ t.text ++ "\n") = some s := by
  have hend : '\n' ∉ t.text.toList := Summary.not_mem_text (by decide) (by decide +kernel) t
  have hplus : '+' ∉ t.text.toList := Summary.not_mem_text (by decide) (by decide +kernel) t
  have hlines : (t.text ++ "\n").toList.splitOn '\n' = [t.text.toList, []] := by
    rw [String.toList_append]
    exact List.splitOn_append_cons_self_of_not_mem hend []
  have hrule : isRule t.text.toList = false := decide_eq_false fun h => hplus (List.mem_of_head? h)
  rw [String.append_assoc]
  refine s.ofText?_append ?_
  rw [hlines]
  exact List.forall_mem_cons.mpr ⟨hrule, List.forall_mem_singleton.mpr rfl⟩

/-- Two tables lose nothing of what they show. Their rows, the order of these and all of their values are read back from
the text, whatever the width of the numbers, and so no other snapshot has the same text. -/
theorem Snapshot.text_loses_nothing : (∀ s : Snapshot, ofText? s.text = some s) ∧ Function.Injective text := by
  refine ⟨ofText?_text, ?_⟩
  intro s t h
  have hread := congrArg ofText? h
  rw [ofText?_text, ofText?_text] at hread
  exact Option.some.inj hread

end GraphViews.Record
