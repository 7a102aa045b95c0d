import GraphViews.Filter.Parser

/-!
# What the parsers return

The results of the parsers by those of their parts. The failures that are noted on the way do not count here.
-/

namespace GraphViews.Filter

def Node.between (rule : Rule) (s r : List Char) (inner : List Node) : Node :=
  mk rule (String.ofList (s.take (s.length - r.length))) inner

theorem Node.between_append (rule : Rule) (w r : List Char) (inner : List Node) :
    between rule (w ++ r) r inner = mk rule (String.ofList w) inner := by
  simp [between]

namespace Outcome

@[simp] theorem result_plain (rest : Option (List Char)) :
    (plain rest).result = rest.map fun r => ([], r) := rfl

@[simp] theorem result_after (o : Outcome) (earlier : Attempts → Attempts) :
    (o.after earlier).result = o.result := rfl

@[simp] theorem result_under (o : Outcome) (rule : Rule) (s : List Char) :
    (o.under rule s).result = o.result.map fun p => ([.between rule s p.2 p.1], p.2) := by
  unfold under
  split
  · rename_i h
    rw [h]
    rfl
  · rename_i h
    rw [h]
    rfl

@[simp] theorem result_andThen (o : Outcome) (next : Parser) :
    (o.andThen next).result =
      o.result.bind fun p => (next p.2).result.map fun q => (p.1 ++ q.1, q.2) := by
  unfold andThen
  split <;> simp_all

@[simp] theorem result_orElse (o : Outcome) (other : Unit → Outcome) :
    (o.orElse other).result = o.result.or (other ()).result := by
  unfold orElse
  split <;> simp_all

end Outcome

variable {inner operand : Parser} {symbol : List Char}

theorem result_leaf {rule : Rule} {read : List Char → Option (List Char)} {s r : List Char}
    (h : read s = some r) : (leaf rule read s).result = some ([.between rule s r []], r) := by
  simp [leaf, h]

theorem leaf_eq_none {rule : Rule} {read : List Char → Option (List Char)} {s : List Char} :
    (leaf rule read s).result = none ↔ read s = none := by
  simp [leaf]

theorem leaf_eq_some {rule : Rule} {read : List Char → Option (List Char)} {s r : List Char}
    {ns : List Node} (h : (leaf rule read s).result = some (ns, r)) : read s = some r := by
  cases hs : read s with
  | none => simp [leaf, hs] at h
  | some q =>
    rw [result_leaf hs] at h
    cases h
    rfl

theorem result_atom (s : List Char) : (atom inner s).result =
    (leaf .bool boolean? s).result.or ((leaf .int integer? s).result.or
      ((leaf .field field? s).result.or (parenthesised inner s).result)) := by
  simp [atom]

theorem parenthesised_eq_some {s r : List Char} {ns : List Node} :
    (parenthesised inner s).result = some (ns, r) ↔
      ∃ s' r', s = '(' :: s' ∧ (inner (skipBlank s')).result = some (ns, r') ∧
        skipBlank r' = ')' :: r := by
  unfold parenthesised
  split
  · rename_i s'
    rw [Outcome.result_andThen, Option.bind_eq_some_iff]
    constructor
    · rintro ⟨⟨ms, r'⟩, hms, h⟩
      split at h
      · rename_i hr
        simp only [Outcome.result_plain, Option.map_some, List.append_nil] at h
        cases h
        exact ⟨s', r', rfl, hms, hr⟩
      · cases h
    · rintro ⟨_, r', hs, hns, hr⟩
      cases hs
      exact ⟨(ns, r'), hns, by simp [hr]⟩
  · rename_i hs
    constructor
    · intro h
      cases h
    · rintro ⟨s', r', rfl, -⟩
      exact absurd rfl (hs s')

theorem result_chain (s : List Char) : (chain symbol operand s).result =
    (operand s).result.bind fun p =>
      (chainFrom symbol operand p.2).result.map fun q => (p.1 ++ q.1, q.2) := by
  simp [chain]

theorem chainFrom_stop {s : List Char} (h : strip? symbol (skipBlank s) = none) :
    (chainFrom symbol operand s).result = some ([], s) := by
  rw [chainFrom, h]
  rfl

private theorem result_chainFrom {s r : List Char} (h : strip? symbol (skipBlank s) = some r) :
    (chainFrom symbol operand s).result =
      ((operand (skipBlank r)).result.bind fun p =>
        (if p.2.length < s.length then (chainFrom symbol operand p.2).result else none).map
          fun q => (p.1 ++ q.1, q.2)).or (some ([], s)) := by
  rw [chainFrom, h]
  simp only [Outcome.result_orElse, Outcome.result_andThen, Outcome.result_plain, Option.map_some,
    apply_ite Outcome.result, Option.map_none]

/-- A chain has a result wherever it goes on from. -/
theorem chainFrom_isSome (symbol : List Char) (operand : Parser) (s : List Char) :
    ∃ ns r, (chainFrom symbol operand s).result = some (ns, r) := by
  cases hs : strip? symbol (skipBlank s) with
  | none => exact ⟨[], s, chainFrom_stop hs⟩
  | some r =>
    rw [result_chainFrom hs]
    cases h : (operand (skipBlank r)).result.bind _ with
    | none => exact ⟨[], s, rfl⟩
    | some p => exact ⟨p.1, p.2, rfl⟩

theorem chainFrom_step {s r r' : List Char} {ns : List Node}
    (h : strip? symbol (skipBlank s) = some r)
    (hn : (operand (skipBlank r)).result = some (ns, r')) (hlt : r'.length < s.length) :
    (chainFrom symbol operand s).result =
      (chainFrom symbol operand r').result.map fun q => (ns ++ q.1, q.2) := by
  obtain ⟨ms, q, hm⟩ := chainFrom_isSome symbol operand r'
  rw [result_chainFrom h, hn]
  simp [hlt, hm]

/-- All that a chain can go on with. -/
theorem chainFrom_cases {s q : List Char} {ns : List Node}
    (h : (chainFrom symbol operand s).result = some (ns, q)) :
    q = s ∨
    ∃ r ms ms' r', strip? symbol (skipBlank s) = some r ∧
      (operand (skipBlank r)).result = some (ms, r') ∧ r'.length < s.length ∧
      (chainFrom symbol operand r').result = some (ms', q) := by
  cases hs : strip? symbol (skipBlank s) with
  | none =>
    rw [chainFrom_stop hs] at h
    cases h
    exact .inl rfl
  | some r =>
    simp only [result_chainFrom hs, Option.or_eq_some_iff, Option.bind_eq_some_iff,
      Option.map_eq_some_iff, Option.ite_none_right_eq_some] at h
    rcases h with ⟨⟨ms, r'⟩, hms, ⟨ms', q'⟩, ⟨hlt, hms'⟩, h⟩ | ⟨-, h⟩
    · cases h
      exact .inr ⟨r, ms, ms', r', rfl, hms, hlt, hms'⟩
    · cases h
      exact .inl rfl

theorem result_remainder (s : List Char) : (remainder inner s).result =
    (chain ['%'] (atom inner) s).result.map fun p => ([.between .modExpr s p.2 p.1], p.2) := by
  simp [remainder]

theorem result_conjunction (s : List Char) : (conjunction inner s).result =
    (chain ['&', '&'] (negation inner) s).result.map
      fun p => ([.between .andExpr s p.2 p.1], p.2) := by
  simp [conjunction]

theorem result_disjunction (s : List Char) : (disjunction inner s).result =
    (chain ['|', '|'] (conjunction inner) s).result.map
      fun p => ([.between .orExpr s p.2 p.1], p.2) := by
  simp [disjunction]

theorem result_comparison (s : List Char) : (comparison inner s).result =
    ((remainder inner s).result.bind fun p =>
      (comparisonFrom inner p.2).result.map fun q => (p.1 ++ q.1, q.2)).map
        fun p => ([.between .cmpExpr s p.2 p.1], p.2) := by
  simp [comparison]

theorem result_comparisonFrom (s : List Char) : (comparisonFrom inner s).result =
    ((leaf .cmpOp cmpOp? (skipBlank s)).result.bind fun p =>
      (remainder inner (skipBlank p.2)).result.map fun q => (p.1 ++ q.1, q.2)).or
        (some ([], s)) := by
  simp [comparisonFrom]

theorem result_negation_marked (r : List Char) : (negation inner ('!' :: r)).result =
    ((negation inner (skipBlank r)).result.or (comparison inner ('!' :: r)).result).map
      fun p => ([.between .notExpr ('!' :: r) p.2 p.1], p.2) := by
  rw [negation]
  simp

theorem result_negation {s : List Char} (h : ∀ r, s ≠ '!' :: r) : (negation inner s).result =
    (comparison inner s).result.map fun p => ([.between .notExpr s p.2 p.1], p.2) := by
  rw [negation]
  · simp
  · exact h

def shorter (bound : Nat) : Parser := fun s =>
  if s.length < bound then expression s else .plain none

theorem expression_eq (s : List Char) : expression s = disjunction (shorter s.length) s := by
  rw [expression]
  rfl

theorem wholeText_eq_some {s r : List Char} {ns : List Node} :
    (wholeText s).result = some (ns, r) ↔
      r = [] ∧ ∃ r' ms, (expression (skipBlank s)).result = some (ms, r') ∧ skipBlank r' = [] ∧
        ns = ms ++ [.between .eoi [] [] []] := by
  simp only [wholeText, Outcome.result_andThen, Outcome.result_under, Outcome.result_plain,
    Option.bind_eq_some_iff]
  constructor
  · rintro ⟨⟨ms, r'⟩, hms, h⟩
    split at h
    · rename_i hr
      rw [hr] at h
      cases h
      exact ⟨rfl, r', ms, hms, hr, rfl⟩
    · cases h
  · rintro ⟨rfl, r', ms, hms, hr, rfl⟩
    exact ⟨(ms, r'), hms, by simp [hr]⟩

end GraphViews.Filter
