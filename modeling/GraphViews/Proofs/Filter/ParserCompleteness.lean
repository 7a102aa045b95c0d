import GraphViews.Proofs.Filter.Lexemes
import GraphViews.Proofs.Filter.Parts

/-!
# Every filter is read

A term is read from wherever its tokens are laid out, if the next token is one that cannot belong to it. The next
token cannot belong to a term whose level is tighter than that of the operator it is.
-/

namespace GraphViews.Filter

/-- An operator that stands behind an operand ranks as its level, a closing parenthesis above all levels. -/
def Token.rank : Token → Nat
  | mod => 1
  | cmp _ => 2
  | and => 4
  | or => 5
  | rparen => 6
  | _ => 0

/-- The next token, if there is one, ranks above `n`. -/
def Closes (n : Nat) (us : List Token) : Prop := ∀ u ∈ us.head?, n < u.rank

namespace Closes

theorem nil (n : Nat) : Closes n [] := by
  simp [Closes]

theorem cons {n : Nat} {u : Token} (h : n < u.rank) (us : List Token) : Closes n (u :: us) := by
  simpa [Closes] using h

theorem mono {m n : Nat} (hmn : m ≤ n) {us : List Token} (h : Closes n us) : Closes m us :=
  fun u hu => Nat.lt_of_le_of_lt hmn (h u hu)

end Closes

variable {fits : Token → List Char → Prop} {us : List Token} {r : List Char}

/-- No word goes on into an operator or a closing parenthesis. -/
theorem Closes.head_not_word (hc : Closes 0 us) (h : Laid fits us r) :
    r.head?.any isWordChar = false := by
  have hblank {c : Char} {b s : List Char} (hb : ∀ d ∈ c :: b, isBlank d = true) :
      (c :: b ++ s).head?.any isWordChar = false :=
    not_isWordChar_of_isBlank (hb c List.mem_cons_self)
  cases h with
  | blank hb =>
    cases r with
    | nil => rfl
    | cons c r => exact not_isWordChar_of_isBlank (hb c List.mem_cons_self)
  | @token b s u us hb _ _ =>
    cases b with
    | cons c b => exact hblank hb
    | nil =>
      have hu : 0 < u.rank := hc u rfl
      cases u with
      | bool _ | int _ | field _ | lparen | not => cases hu
      | cmp op => cases op <;> rfl
      | mod | and | or | rparen => rfl

private theorem strip?_chars {t u : Token} (ht : t = .mod ∨ t = .and ∨ t = .or) (hu : t.rank < u.rank)
    (s : List Char) : strip? t.chars (u.chars ++ s) = none := by
  rcases ht with rfl | rfl | rfl
  · cases u with
    | cmp op => cases op <;> rfl
    | and | or | rparen => rfl
    | _ => simp [Token.rank] at hu
  · cases u with
    | or | rparen => rfl
    | _ => simp [Token.rank] at hu
  · cases u with
    | rparen => rfl
    | _ => simp [Token.rank] at hu

theorem Closes.strip?_eq_none {t : Token} (ht : t = .mod ∨ t = .and ∨ t = .or)
    (hc : Closes t.rank us) (h : Laid fits us r) : strip? t.chars (skipBlank r) = none := by
  cases us with
  | nil =>
    rw [h.skipBlank_eq_nil]
    rcases ht with rfl | rfl | rfl <;> rfl
  | cons u us =>
    obtain ⟨r', hr, -, -⟩ := h.exists_cons
    rw [hr]
    exact strip?_chars ht (hc u rfl) r'

theorem Closes.cmpOp?_eq_none (hc : Closes 2 us) (h : Laid fits us r) :
    cmpOp? (skipBlank r) = none := by
  cases us with
  | nil =>
    rw [h.skipBlank_eq_nil]
    rfl
  | cons u us =>
    obtain ⟨r', hr, -, -⟩ := h.exists_cons
    have hu : 2 < u.rank := hc u rfl
    rw [hr]
    cases u with
    | and | or | rparen => rfl
    | _ => simp [Token.rank] at hu

namespace Level

def parser (inner : Parser) : Level → Parser
  | atom => Filter.atom inner
  | remainder => Filter.remainder inner
  | comparison => Filter.comparison inner
  | negation => Filter.negation inner
  | conjunction => Filter.conjunction inner
  | disjunction => Filter.disjunction inner

/-- How the parser of the level goes on behind a term of the level. -/
def resume (inner : Parser) : Level → Parser
  | remainder => chainFrom ['%'] (Filter.atom inner)
  | conjunction => chainFrom ['&', '&'] (Filter.negation inner)
  | disjunction => chainFrom ['|', '|'] (Filter.conjunction inner)
  | _ => fun s => .plain (some s)

/-- Below this rank a token may still belong to the last operand of a term of the level. -/
def operandRank : Level → Nat
  | atom | remainder => 0
  | comparison => 2
  | negation | conjunction => 3
  | disjunction => 4

end Level

/-- Wherever the tokens are laid out in front of a token that cannot belong to their last operand, the parser of the
level takes them and goes on behind parts that stand for `x`. -/
def Reads (fits : Token → List Char → Prop) (l : Level) (ts : List Token) (x : Raw) : Prop :=
  ∀ n us s, (skipBlank s).length ≤ n → Laid fits (ts ++ us) s → Closes l.operandRank us →
    ∃ r ns, Laid fits us r ∧ r.length ≤ (skipBlank s).length ∧ l.Combines ns x ∧
      (l.parser (shorter n) (skipBlank s)).result =
        (l.resume (shorter n) r).result.map
          fun p => (l.wrap (skipBlank s) p.2 (ns ++ p.1), p.2)

private theorem resume_eq {l : Level} {inner : Parser} (hc : Closes l.rank us) (h : Laid fits us r) :
    (l.resume inner r).result = some ([], r) := by
  cases l with
  | remainder => exact chainFrom_stop (hc.strip?_eq_none (t := .mod) (.inl rfl) h)
  | conjunction => exact chainFrom_stop (hc.strip?_eq_none (t := .and) (.inr (.inl rfl)) h)
  | disjunction => exact chainFrom_stop (hc.strip?_eq_none (t := .or) (.inr (.inr rfl)) h)
  | _ => rfl

variable {l m : Level} {ss ts : List Token} {x y : Raw}

theorem Reads.result (h : Reads fits l ts x) {n : Nat} {s : List Char}
    (hn : (skipBlank s).length ≤ n) (hs : Laid fits (ts ++ us) s) (hc : Closes l.operandRank us)
    (hl : Closes l.rank us) :
    ∃ r k, Laid fits us r ∧ r.length ≤ (skipBlank s).length ∧ Node.StandsFor k l x ∧
      (l.parser (shorter n) (skipBlank s)).result = some ([k], r) := by
  obtain ⟨r, ns, hr, hle, hns, hp⟩ := h n us s hn hs hc
  obtain ⟨k, hk, hx⟩ := hns (skipBlank s) r
  refine ⟨r, k, hr, hle, hx, ?_⟩
  rw [hp, resume_eq hl hr, Option.map_some, List.append_nil, hk]

private theorem reads_token {t : Token} {n : Node} (hn : n.read = x.resolve)
    (h : ∀ (inner : Parser) (r : List Char), r.head?.any isWordChar = false →
      (atom inner (t.chars ++ r)).result = some ([n], r)) :
    Reads fits .atom [t] x := by
  intro n' us s _ hs hc
  obtain ⟨r, hr, hl, hlt⟩ := hs.exists_cons
  refine ⟨r, [n], hl, Nat.le_of_lt hlt, Level.combines_atom hn, ?_⟩
  rw [hr]
  exact h (shorter n') r (hc.head_not_word hl)

private theorem reads_bool (b : Bool) : Reads fits .atom [.bool b] (.bool b) := by
  refine reads_token (n := .mk .bool (String.ofList (Token.bool b).chars) []) ?_ fun inner r hr => ?_
  · cases b <;> rfl
  · rw [result_atom, result_leaf (boolean?_eq_some.mpr ⟨b, rfl, hr⟩), Node.between_append]
    rfl

private theorem reads_int (i : Literal) : Reads fits .atom [.int i] (.int i.text) := by
  refine reads_token (n := .mk .int i.text []) rfl fun inner r hr => ?_
  have hb : boolean? (i.chars ++ r) = none := by
    obtain ⟨c, cs, hi, rfl | hc⟩ := i.exists_chars
    · rw [hi]
      exact boolean?_cons rfl _
    · rw [hi]
      exact boolean?_cons (not_isAlpha_of_isDigit hc) _
  have hd : r.head?.any Char.isDigit = false := by
    cases r with
    | nil => rfl
    | cons c r => exact Bool.eq_false_iff.mpr fun hc => absurd (isWordChar_of_isDigit hc) (by simpa using hr)
  rw [result_atom, Token.chars, leaf_eq_none.mpr hb, result_leaf (integer?_chars i hd),
    Node.between_append]
  rfl

private theorem reads_field (a : Name) : Reads fits .atom [.field a] (.field a.val) := by
  refine reads_token (n := .mk .field a.val []) rfl fun inner r hr => ?_
  have hi : integer? (a.val.toList ++ r) = none := by
    obtain ⟨c, cs, ha, hc, -⟩ := a.property.word
    rw [ha]
    refine integer?_eq_none ?_ ?_ _
    · exact Bool.eq_false_iff.mpr fun hd => absurd (not_isAlpha_of_isDigit hd) (by simp [hc])
    · rintro rfl
      cases hc
  rw [result_atom, Token.chars, leaf_eq_none.mpr (boolean?_name a hr), leaf_eq_none.mpr hi,
    result_leaf (field?_name a hr), Node.between_append, String.ofList_toList]
  rfl

theorem Reads.parens (h : Reads fits .disjunction ts x) :
    Reads fits .atom (.lparen :: (ts ++ [.rparen])) x := by
  intro n us s hn hs hc
  rw [List.cons_append, List.append_assoc] at hs
  obtain ⟨s', hs', hl, hlt⟩ := hs.exists_cons
  have hle := skipBlank_length_le s'
  obtain ⟨r, k, hr, hrle, hk, hx⟩ := h.result (Nat.le_refl _) hl (Closes.cons (by decide) us)
    (Closes.cons (by decide) us)
  obtain ⟨q, hq, hlq, hqlt⟩ := hr.exists_cons
  have hrq := skipBlank_length_le r
  refine ⟨q, [k], hlq, by omega, Level.combines_atom hk.read, ?_⟩
  have hinner : (shorter n (skipBlank s')).result = some ([k], r) := by
    rw [shorter, if_pos (by omega), expression_eq]
    exact hx
  have hp : (parenthesised (shorter n) (skipBlank s)).result = some ([k], q) :=
    parenthesised_eq_some.mpr ⟨s', r, hs', hinner, hq⟩
  change (atom (shorter n) (skipBlank s)).result = some ([k], q)
  rw [result_atom, hp, hs']
  rfl

/-- The level chains operands of the level `m` by the token. -/
structure Chains (l : Level) (t : Token) (op : Expr → Expr → Expr) (join : Raw → Raw → Raw)
    (m : Level) : Prop where
  joins : l.Joins op join
  parser : ∀ inner s, (l.parser inner s).result =
    (chain t.chars (m.parser inner) s).result.map fun p => (l.wrap s p.2 p.1, p.2)
  resume : ∀ inner, l.resume inner = chainFrom t.chars (m.parser inner)
  rank_le : m.rank ≤ l.operandRank
  operandRank_le : m.operandRank ≤ l.operandRank
  lt_rank : l.operandRank < t.rank

private theorem chains_remainder : Chains .remainder .mod .mod .mod .atom where
  joins := Level.joins_remainder
  parser _ s := result_remainder s
  resume _ := rfl
  rank_le := Nat.le_refl _
  operandRank_le := Nat.le_refl _
  lt_rank := by decide

private theorem chains_conjunction : Chains .conjunction .and .and .and .negation where
  joins := Level.joins_conjunction
  parser _ s := result_conjunction s
  resume _ := rfl
  rank_le := Nat.le_refl _
  operandRank_le := Nat.le_refl _
  lt_rank := by decide

private theorem chains_disjunction : Chains .disjunction .or .or .or .conjunction where
  joins := Level.joins_disjunction
  parser _ s := result_disjunction s
  resume _ := rfl
  rank_le := Nat.le_refl _
  operandRank_le := by decide
  lt_rank := by decide

namespace Chains

variable {t : Token} {op : Expr → Expr → Expr} {join : Raw → Raw → Raw}

private theorem reads_one (h : Chains l t op join m) (hx : Reads fits m ts x) : Reads fits l ts x := by
  intro n us s hn hs hc
  obtain ⟨r, k, hr, hle, hk, hx⟩ := hx.result hn hs (hc.mono h.operandRank_le) (hc.mono h.rank_le)
  refine ⟨r, [k], hr, hle, h.joins.combines_one hk.read, ?_⟩
  rw [h.parser, result_chain, hx, h.resume, Option.bind_some, Option.map_map]
  rfl

private theorem reads_more (h : Chains l t op join m) (hx : Reads fits l ss x) (hy : Reads fits m ts y) :
    Reads fits l (ss ++ t :: ts) (join x y) := by
  intro n us s hn hs hc
  rw [List.append_assoc, List.cons_append] at hs
  obtain ⟨r, ns, hr, hrle, hns, hx⟩ := hx n _ s hn hs (Closes.cons h.lt_rank _)
  obtain ⟨s', hs', hl, hlt⟩ := hr.exists_cons
  have hrle' := skipBlank_length_le r
  have hsle := skipBlank_length_le s'
  obtain ⟨q, k, hq, hqle, hk, hy⟩ := hy.result (n := n) (by omega) hl (hc.mono h.operandRank_le)
    (hc.mono h.rank_le)
  refine ⟨q, ns ++ [k], hq, by omega, h.joins.combines_more hns hk.read, ?_⟩
  rw [hx, h.resume, chainFrom_step (strip?_eq_some.mpr hs') hy (by omega), Option.map_map]
  simp [Function.comp_def]

end Chains

/-- A term begins with a token that is no operator between operands, and with a mark of negation only at the levels that
have one. -/
theorem Derives.exists_head (h : Derives l ts x) :
    ∃ t us, ts = t :: us ∧ t.rank = 0 ∧ (l.rank < 3 → t ≠ .not) := by
  induction h with
  | bool b => exact ⟨_, _, rfl, rfl, fun _ => Token.noConfusion⟩
  | int i => exact ⟨_, _, rfl, rfl, fun _ => Token.noConfusion⟩
  | field a => exact ⟨_, _, rfl, rfl, fun _ => Token.noConfusion⟩
  | parens h => exact ⟨_, _, rfl, rfl, fun _ => Token.noConfusion⟩
  | not h => exact ⟨_, _, rfl, rfl, fun hl => absurd hl (by decide)⟩
  | ofAtom _ ih | ofRemainder _ ih =>
    obtain ⟨t, us, rfl, hr, ht⟩ := ih
    exact ⟨t, us, rfl, hr, fun _ => ht (by decide)⟩
  | ofComparison _ ih | ofNegation _ ih | ofConjunction _ ih =>
    obtain ⟨t, us, rfl, hr, -⟩ := ih
    exact ⟨t, us, rfl, hr, fun hl => absurd hl (by decide)⟩
  | mod _ _ ih _ | cmp _ _ _ ih _ =>
    obtain ⟨t, us, rfl, hr, ht⟩ := ih
    exact ⟨t, _, rfl, hr, fun _ => ht (by decide)⟩
  | and _ _ ih _ | or _ _ ih _ =>
    obtain ⟨t, us, rfl, hr, -⟩ := ih
    exact ⟨t, _, rfl, hr, fun hl => absurd hl (by decide)⟩

/-- Of the characters that tokens of terms begin with, none is an equals sign, and an exclamation mark is a negation. -/
theorem Token.first_char {t : Token} (ht : t.rank = 0) {c : Char} {cs : List Char}
    (hc : t.chars = c :: cs) : c ≠ '=' ∧ (c = '!' → t = .not) := by
  have hword (h : isWordChar c = true) : c ≠ '=' ∧ (c = '!' → t = .not) := by
    refine ⟨?_, ?_⟩
    · rintro rfl
      cases h
    · rintro rfl
      cases h
  cases t with
  | bool b => exact hword (isWordChar_bool b c (by simp [hc]))
  | field a => exact hword (a.all_isWordChar c (by simp [show a.val.toList = c :: cs from hc]))
  | int i =>
    obtain ⟨d, ds, hi, hd⟩ := i.exists_chars
    cases hi.symm.trans hc
    rcases hd with rfl | hd
    · exact ⟨by decide, fun h => absurd h (by decide)⟩
    · exact hword (isWordChar_of_isDigit hd)
  | lparen =>
    cases hc
    exact ⟨by decide, fun h => absurd h (by decide)⟩
  | not =>
    cases hc
    exact ⟨by decide, fun _ => rfl⟩
  | mod | cmp _ | and | or | rparen => cases ht

/-- No equals sign directly before a term, so that it cannot be taken with a comparison. -/
theorem Derives.head_ne_equals (h : Derives l ts x) {s : List Char} (hs : Laid fits (ts ++ us) s) :
    s.head? ≠ some '=' := by
  obtain ⟨t, ts', rfl, hrank, -⟩ := h.exists_head
  intro he
  cases hs with
  | @token b s t _ hb _ _ =>
    cases b with
    | cons c b =>
      cases he
      exact absurd (hb '=' List.mem_cons_self) (by decide)
    | nil =>
      obtain ⟨c, cs, hc, -⟩ := t.exists_chars
      rw [List.nil_append, hc] at he
      cases he
      exact (Token.first_char hrank hc).1 rfl

theorem Derives.skipBlank_ne_mark (h : Derives l ts x) (hl : l.rank < 3) {s : List Char}
    (hs : Laid fits (ts ++ us) s) (r : List Char) : skipBlank s ≠ '!' :: r := by
  obtain ⟨t, ts', rfl, hrank, hnot⟩ := h.exists_head
  obtain ⟨r', hr, -, -⟩ := Laid.exists_cons hs
  obtain ⟨c, cs, hc, -⟩ := t.exists_chars
  rw [hr, hc]
  intro he
  cases he
  exact hnot hl ((Token.first_char hrank hc).2 rfl)

private theorem reads_comparison_one (h : Reads fits .remainder ts x) : Reads fits .comparison ts x := by
  intro n us s hn hs hc
  obtain ⟨r, k, hr, hle, hk, hx⟩ := h.result hn hs (hc.mono (by decide)) (hc.mono (by decide))
  refine ⟨r, [k], hr, hle, Level.combines_comparison_one hk, ?_⟩
  have hnone : (leaf .cmpOp cmpOp? (skipBlank r)).result = none :=
    leaf_eq_none.mpr (Closes.cmpOp?_eq_none hc hr)
  change (remainder (shorter n) (skipBlank s)).result = some ([k], r) at hx
  change (comparison (shorter n) (skipBlank s)).result = _
  rw [result_comparison, hx, Option.bind_some, result_comparisonFrom, hnone]
  rfl

private theorem reads_comparison_two (op : CmpOp) (hx : Reads fits .remainder ss x)
    (hy : Reads fits .remainder ts y) (hts : Derives .remainder ts y) :
    Reads fits .comparison (ss ++ .cmp op :: ts) (.cmp op x y) := by
  intro n us s hn hs hc
  rw [List.append_assoc, List.cons_append] at hs
  have hrank (k : Nat) (hk : k < 2) : Closes k (.cmp op :: (ts ++ us)) := Closes.cons hk _
  obtain ⟨r, k, hr, hrle, hk, hx⟩ := hx.result hn hs (hrank 0 (by decide)) (hrank 1 (by decide))
  obtain ⟨s', hs', hl, hlt⟩ := hr.exists_cons
  have hop : cmpOp? (skipBlank r) = some s' := by
    rw [hs']
    exact cmpOp?_symbol op (hts.head_ne_equals hl)
  have hnode : (Node.between .cmpOp (skipBlank r) s' []).comparison = .ok op := by
    rw [hs', Node.between_append]
    cases op <;> rfl
  have hrle' := skipBlank_length_le r
  have hsle := skipBlank_length_le s'
  obtain ⟨q, m, hq, hqle, hm, hy⟩ := hy.result (n := n) (by omega) hl (hc.mono (by decide))
    (hc.mono (by decide))
  refine ⟨q, _, hq, by omega, Level.combines_comparison_two hk hnode hm, ?_⟩
  change (remainder (shorter n) (skipBlank s)).result = some ([k], r) at hx
  change (remainder (shorter n) (skipBlank s')).result = some ([m], q) at hy
  change (comparison (shorter n) (skipBlank s)).result = _
  rw [result_comparison, hx, Option.bind_some, result_comparisonFrom, result_leaf hop,
    Option.bind_some, hy]
  rfl

private theorem reads_negation_plain (h : Reads fits .comparison ts x) (hts : Derives .comparison ts x) :
    Reads fits .negation ts x := by
  intro n us s hn hs hc
  obtain ⟨r, k, hr, hle, hk, hx⟩ := h.result hn hs (hc.mono (by decide)) (hc.mono (by decide))
  refine ⟨r, [k], hr, hle, Level.combines_negation_plain hk, ?_⟩
  change (comparison (shorter n) (skipBlank s)).result = some ([k], r) at hx
  change (negation (shorter n) (skipBlank s)).result = _
  rw [result_negation (hts.skipBlank_ne_mark (by decide) hs), hx]
  rfl

private theorem reads_negation_marked (h : Reads fits .negation ts x) :
    Reads fits .negation (.not :: ts) (.not x) := by
  intro n us s hn hs hc
  obtain ⟨s', hs', hl, hlt⟩ := Laid.exists_cons hs
  have hsle := skipBlank_length_le s'
  obtain ⟨r, k, hr, hle, hk, hx⟩ := h.result (n := n) (by omega) hl hc hc
  refine ⟨r, [k], hr, by omega, Level.combines_negation_marked hk, ?_⟩
  change (negation (shorter n) (skipBlank s')).result = some ([k], r) at hx
  change (negation (shorter n) (skipBlank s)).result = _
  rw [hs', Token.chars, List.singleton_append, result_negation_marked, hx]
  rfl

/-- A term of any level is read. -/
theorem Derives.reads (h : Derives l ts x) : Reads fits l ts x := by
  induction h with
  | bool b => exact reads_bool b
  | int i => exact reads_int i
  | field a => exact reads_field a
  | parens _ ih => exact ih.parens
  | ofAtom _ ih => exact chains_remainder.reads_one ih
  | mod _ _ ihx ihy => exact chains_remainder.reads_more ihx ihy
  | ofRemainder _ ih => exact reads_comparison_one ih
  | cmp op _ hy ihx ihy => exact reads_comparison_two op ihx ihy hy
  | ofComparison h ih => exact reads_negation_plain ih h
  | not _ ih => exact reads_negation_marked ih
  | ofNegation _ ih => exact chains_conjunction.reads_one ih
  | and _ _ ihx ihy => exact chains_conjunction.reads_more ihx ihy
  | ofConjunction _ ih => exact chains_disjunction.reads_one ih
  | or _ _ ihx ihy => exact chains_disjunction.reads_more ihx ihy

theorem wholeText_complete {s : List Char} (hs : Laid fits ts s) (h : Derives .disjunction ts x) :
    ∃ n k, (wholeText s).result = some ([n, k], []) ∧ n.StandsFor .disjunction x := by
  have hs' : Laid fits (ts ++ []) s := by rwa [List.append_nil]
  obtain ⟨r, n, hr, -, hx, hn⟩ := h.reads.result (Nat.le_refl _) hs' (Closes.nil _) (Closes.nil _)
  refine ⟨n, _, wholeText_eq_some.mpr ⟨rfl, r, [n], ?_, hr.skipBlank_eq_nil, rfl⟩, hx⟩
  rw [expression_eq]
  exact hn

end GraphViews.Filter
