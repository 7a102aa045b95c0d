import GraphViews.Proofs.Filter.Acceptance
import GraphViews.Proofs.Filter.Rejection
import GraphViews.Proofs.Filter.Rendering
import Mathlib.Data.List.Induction

/-!
# Filters for given ids

The filter for a list of ids compares the id of a vertex with one after the other. Its text is parsed back for any
ids, and it accepts the vertices of which the id is in the list.
-/

namespace GraphViews.Filter

open Fallible

variable {id : Int64} {record : List Int64}

def idText (n : Int64) : String := s!"vid == {n}"

/-- The text that compares the id of a vertex with each of the given ones in turn. -/
def anyOf (ids : List Int64) : String := " || ".intercalate (ids.map idText)

def noneOf (ids : List Int64) : String := s!"!({anyOf ids})"

theorem Literal.chars_ofInt (n : Int) : (ofInt n).chars = n.repr.toList := by
  cases n with
  | ofNat m => simp [chars, ofInt, Int.repr]
  | negSucc m => simp [chars, ofInt, Int.repr, Int.negSucc_lt_zero]

theorem read?_toString (n : Int64) : Decimal.read? (toString n) = some n := by
  have htext : (Literal.ofInt n.toInt).text = toString n := by
    rw [Literal.text, Literal.chars_ofInt, String.ofList_toList]
    rfl
  have hin : (Literal.ofInt n.toInt).InRange := by
    have hmin := n.le_toInt
    have hmax := n.toInt_lt
    rw [Literal.InRange, Literal.value_ofInt]
    omega
  rw [← htext, Literal.read?_text, if_pos hin, Literal.word, Literal.value_ofInt, Int64.ofInt_toInt]

def hasId (n : Int64) : Expr := .cmp .eq (.field "vid") (.int n)

/-- One comparison after the other, grouped to the left. -/
def hasIdAmong (n : Int64) (ns : List Int64) : Expr := ns.foldl (fun e m => .or e (hasId m)) (hasId n)

theorem hasIdAmong_concat (n : Int64) (ns : List Int64) (m : Int64) :
    hasIdAmong n (ns ++ [m]) = .or (hasIdAmong n ns) (hasId m) := by
  rw [hasIdAmong, List.foldl_append]
  rfl

private theorem kindOf_hasIdAmong (n : Int64) (ns : List Int64) :
    kindOf .vertex (hasIdAmong n ns) = .ok .boolean := by
  induction ns using List.reverseRecOn with
  | nil => rfl
  | append_singleton ns m ih =>
    rw [hasIdAmong_concat]
    exact kindOf_or.mpr ⟨ih, rfl, rfl⟩

private theorem truth_hasId (n : Int64) : Expr.truth .vertex (id :: record) (hasId n) = .ok (id == n) := rfl

/-- The comparisons hold together as a list contains its elements. -/
theorem truth_hasIdAmong (n : Int64) (ns : List Int64) :
    Expr.truth .vertex (id :: record) (hasIdAmong n ns) = .ok ((n :: ns).contains id) := by
  induction ns using List.reverseRecOn with
  | nil =>
    rw [List.contains_cons, List.contains_nil, Bool.or_false]
    exact truth_hasId n
  | append_singleton ns m ih =>
    have hm : [m].contains id = (id == m) := by rw [List.contains_cons, List.contains_nil, Bool.or_false]
    rw [hasIdAmong_concat, Expr.truth_or_eq, ih, ok_bind, truth_hasId, ← List.cons_append, List.contains_append, hm]
    cases (n :: ns).contains id <;> rfl

def Name.vid : Name := ⟨"vid", by decide⟩

def idTokens (n : Int64) : List Token := [.field Name.vid, .cmp .eq, .int (.ofInt n.toInt)]

def anyOfTokens (n : Int64) (ns : List Int64) : List Token :=
  idTokens n ++ ns.flatMap fun m => .or :: idTokens m

private theorem spells_hasId (n : Int64) : Spells (hasId n) (idTokens n) := by
  have hid : Writes .remainder (.field "vid") [.field Name.vid] := .bare (Nat.zero_le 1) (.field Name.vid)
  have hn : Writes .remainder (.int n) [.int (.ofInt n.toInt)] :=
    .bare (Nat.zero_le 1) (.int _ (Literal.value_ofInt n.toInt))
  exact .cmp .eq hid hn

theorem writes_hasIdAmong (n : Int64) (ns : List Int64) :
    Writes .disjunction (hasIdAmong n ns) (anyOfTokens n ns) := by
  induction ns using List.reverseRecOn with
  | nil => exact .bare (Level.rank_le _) (spells_hasId n)
  | append_singleton ns m ih =>
    have hm : Writes .conjunction (hasId m) (idTokens m) := .bare (Nat.le_add_right 2 2) (spells_hasId m)
    have htokens : anyOfTokens n (ns ++ [m]) = anyOfTokens n ns ++ .or :: idTokens m := by simp [anyOfTokens]
    rw [hasIdAmong_concat, htokens]
    exact .bare (Level.rank_le _) (.or ih hm)

private theorem spaced_idText (n : Int64) : Spaced (idTokens n) (idText n).toList := by
  let pieces : List (List Char × Token) :=
    [([], .field Name.vid), ([' '], .cmp .eq), ([' '], .int (.ofInt n.toInt))]
  have hn : (toString n).toList = (Literal.ofInt n.toInt).chars := (Literal.chars_ofInt n.toInt).symm
  have htext : (idText n).toList = pieces.flatMap fun p => p.1 ++ p.2.chars := by
    change ("vid == " ++ toString n).toList = _
    simp [pieces, hn, Token.chars, Name.vid, CmpOp.symbol]
  rw [htext]
  exact spaced_flatMap pieces (by simp [pieces, isBlank])

theorem spaced_anyOf (n : Int64) (ns : List Int64) :
    Spaced (anyOfTokens n ns) (anyOf (n :: ns)).toList := by
  induction ns generalizing n with
  | nil => simpa [anyOf, anyOfTokens] using spaced_idText n
  | cons m ns ih =>
    have htext : anyOf (n :: m :: ns) = idText n ++ (" || " ++ anyOf (m :: ns)) :=
      String.intercalate_cons_cons.trans String.append_assoc
    have hor : Spaced [.or] " || ".toList :=
      .token (b := [' ']) (by simp [isBlank]) trivial (.blank (b := [' ']) (by simp [isBlank]))
    have htokens : anyOfTokens n (m :: ns) = idTokens n ++ ([.or] ++ anyOfTokens m ns) := rfl
    rw [htext, htokens, String.toList_append, String.toList_append]
    exact spaced_append (spaced_idText n) (spaced_append hor (ih m))

theorem parse_anyOf (n : Int64) (ns : List Int64) : parse (anyOf (n :: ns)) = .ok (hasIdAmong n ns) :=
  parse_of_writes (writes_hasIdAmong n ns) (spaced_anyOf n ns)

theorem parse_noneOf (n : Int64) (ns : List Int64) :
    parse (noneOf (n :: ns)) = .ok (.not (hasIdAmong n ns)) := by
  have hw : Writes .disjunction (.not (hasIdAmong n ns)) (.not :: .lparen :: (anyOfTokens n ns ++ [.rparen])) :=
    .bare (Level.rank_le _) (.not (.parens (writes_hasIdAmong n ns)))
  have htext : noneOf (n :: ns) = "!(" ++ (anyOf (n :: ns) ++ ")") := String.append_assoc
  have hopen : Spaced [.not, .lparen] "!(".toList := spaced_flatMap [([], .not), ([], .lparen)] (by simp)
  have hclose : Spaced [.rparen] ")".toList := spaced_flatMap [([], .rparen)] (by simp)
  refine parse_of_writes hw ?_
  rw [htext, String.toList_append, String.toList_append]
  exact spaced_append hopen (spaced_append (spaced_anyOf n ns) hclose)

variable {ids : List Int64}

theorem exists_compile_anyOf (h : ids ≠ []) : ∃ k, compile (anyOf ids) .vertex = .ok k := by
  obtain ⟨n, ns, rfl⟩ := List.exists_cons_of_ne_nil h
  exact exists_compile_iff.mpr ⟨_, parse_anyOf n ns, check_ok.mpr (kindOf_hasIdAmong n ns)⟩

theorem exists_compile_noneOf (h : ids ≠ []) : ∃ k, compile (noneOf ids) .vertex = .ok k := by
  obtain ⟨n, ns, rfl⟩ := List.exists_cons_of_ne_nil h
  exact exists_compile_iff.mpr ⟨_, parse_noneOf n ns, check_ok.mpr (kindOf_not.mpr ⟨kindOf_hasIdAmong n ns, rfl⟩)⟩

/-- The alternatives accept an id that is in the list, and their negation one that is not. -/
theorem accepts_anyOf (h : ids ≠ []) : accepts (some (anyOf ids)) .vertex (id :: record) = ids.contains id := by
  obtain ⟨n, ns, rfl⟩ := List.exists_cons_of_ne_nil h
  exact accepts_of_truth (parse_anyOf n ns) (truth_hasIdAmong n ns)

theorem accepts_noneOf (h : ids ≠ []) : accepts (some (noneOf ids)) .vertex (id :: record) = !ids.contains id := by
  obtain ⟨n, ns, rfl⟩ := List.exists_cons_of_ne_nil h
  refine accepts_of_truth (parse_noneOf n ns) ?_
  rw [Expr.truth_not_eq, truth_hasIdAmong]
  rfl

end GraphViews.Filter
