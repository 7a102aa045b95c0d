import GraphViews.Proofs.Filter.Classification
import GraphViews.Proofs.Filter.Meaning

/-!
# Writing an expression down

An operator may stand wherever the place allows for its level. Elsewhere it has to be in parentheses, and anywhere it
may be. However an expression is written, it is parsed back.
-/

namespace GraphViews.Filter

def Term.level {φ ι : Type} : Term φ ι → Level
  | .or _ _ => .disjunction
  | .and _ _ => .conjunction
  | .not _ => .negation
  | .cmp _ _ _ => .comparison
  | .mod _ _ => .remainder
  | .field _ | .int _ | .bool _ => .atom

mutual

/-- The tokens are the expression as it is written in a place of the level. -/
inductive Writes : Level → Expr → List Token → Prop where
  | bare {l : Level} {e : Expr} {ts : List Token} (hl : e.level.rank ≤ l.rank) (h : Spells e ts) :
      Writes l e ts
  | parens {l : Level} {e : Expr} {ts : List Token} (h : Writes .disjunction e ts) :
      Writes l e (.lparen :: (ts ++ [.rparen]))

/-- The tokens are the outermost operator of the expression between its operands. -/
inductive Spells : Expr → List Token → Prop where
  | field (x : Name) : Spells (.field x.val) [.field x]
  | int {n : Int64} (i : Literal) (hi : i.value = n.toInt) : Spells (.int n) [.int i]
  | bool (b : Bool) : Spells (.bool b) [.bool b]
  | or {a b : Expr} {ss ts : List Token} (ha : Writes .disjunction a ss)
      (hb : Writes .conjunction b ts) : Spells (.or a b) (ss ++ .or :: ts)
  | and {a b : Expr} {ss ts : List Token} (ha : Writes .conjunction a ss)
      (hb : Writes .negation b ts) : Spells (.and a b) (ss ++ .and :: ts)
  | not {a : Expr} {ts : List Token} (ha : Writes .negation a ts) : Spells (.not a) (.not :: ts)
  | cmp {a b : Expr} {ss ts : List Token} (op : CmpOp) (ha : Writes .remainder a ss)
      (hb : Writes .remainder b ts) : Spells (.cmp op a b) (ss ++ .cmp op :: ts)
  | mod {a b : Expr} {ss ts : List Token} (ha : Writes .remainder a ss)
      (hb : Writes .atom b ts) : Spells (.mod a b) (ss ++ .mod :: ts)

end

private theorem Level.rank_injective {l m : Level} (h : l.rank = m.rank) : l = m := by
  cases l <;> cases m <;> first | rfl | cases h

variable {l m : Level} {ts : List Token} {x : Raw} {e : Expr}

theorem Derives.looser (h : Derives l ts x) (hl : l.rank < 5) :
    ∃ m : Level, m.rank = l.rank + 1 ∧ Derives m ts x := by
  cases l with
  | atom => exact ⟨.remainder, rfl, .ofAtom h⟩
  | remainder => exact ⟨.comparison, rfl, .ofRemainder h⟩
  | comparison => exact ⟨.negation, rfl, .ofComparison h⟩
  | negation => exact ⟨.conjunction, rfl, .ofNegation h⟩
  | conjunction => exact ⟨.disjunction, rfl, .ofConjunction h⟩
  | disjunction => cases Nat.lt_irrefl 5 hl

theorem Level.rank_le (l : Level) : l.rank ≤ 5 := by
  cases l <;> decide

theorem Derives.mono (h : Derives l ts x) (hlm : l.rank ≤ m.rank) : Derives m ts x := by
  obtain ⟨d, hd⟩ := Nat.exists_eq_add_of_le hlm
  -- One level at a time, by how far apart the ranks are.
  induction d generalizing l with
  | zero =>
    obtain rfl := Level.rank_injective hd
    exact h
  | succ d ih =>
    have hm := m.rank_le
    obtain ⟨k, hk, h⟩ := h.looser (by omega)
    exact ih h (by omega) (by omega)

private theorem Literal.resolve_of_value {i : Literal} {n : Int64} (hi : i.value = n.toInt) :
    Raw.resolve (.int i.text) = .ok (.int n) := by
  have hin : i.InRange := by
    have hmin := n.le_toInt
    have hmax := n.toInt_lt
    rw [InRange, hi]
    omega
  have hw : i.word = n := by
    rw [word, hi, Int64.ofInt_toInt]
  have hr : Decimal.read? i.text = some n := by
    rw [i.read?_text, if_pos hin, hw]
  simp [Raw.resolve, Term.traverse, literalValue, hr]

/-- The tokens are a term of the level, and the expression is what it resolves to. -/
def Denotes (l : Level) (ts : List Token) (e : Expr) : Prop := ∃ x, Derives l ts x ∧ x.resolve = .ok e

/-- An operator denotes the expression that joins those of its operands. -/
theorem Denotes.join {k l m : Level} {us ss ts : List Token} {a b : Expr} {join : Raw → Raw → Raw}
    {op : Expr → Expr → Expr} (ha : Denotes l ss a) (hb : Denotes m ts b)
    (hjoin : ∀ x y, Derives l ss x → Derives m ts y → Derives k us (join x y))
    (hop : ∀ x y, (join x y).resolve = (do return op (← x.resolve) (← y.resolve))) :
    Denotes k us (op a b) := by
  obtain ⟨x, hx, hxa⟩ := ha
  obtain ⟨y, hy, hyb⟩ := hb
  refine ⟨join x y, hjoin x y hx hy, ?_⟩
  rw [hop, hxa, hyb]
  rfl

theorem Denotes.not {ts : List Token} {a : Expr} (ha : Denotes .negation ts a) :
    Denotes .negation (.not :: ts) (.not a) := by
  obtain ⟨x, hx, hxa⟩ := ha
  refine ⟨.not x, .not hx, ?_⟩
  change (do return Term.not (← x.resolve)) = _
  rw [hxa]
  rfl

mutual

theorem Writes.denotes {l : Level} {e : Expr} {ts : List Token} : Writes l e ts → Denotes l ts e
  | .bare hl h => by
    obtain ⟨x, hx, he⟩ := h.denotes
    exact ⟨x, hx.mono hl, he⟩
  | .parens h => by
    obtain ⟨x, hx, he⟩ := h.denotes
    exact ⟨x, (Derives.parens hx).mono (Nat.zero_le _), he⟩

theorem Spells.denotes {e : Expr} {ts : List Token} : Spells e ts → Denotes e.level ts e
  | .field x => ⟨_, .field x, rfl⟩
  | .int i hi => ⟨_, .int i, Literal.resolve_of_value hi⟩
  | .bool b => ⟨_, .bool b, rfl⟩
  | .or ha hb => ha.denotes.join hb.denotes (fun _ _ => .or) fun _ _ => rfl
  | .and ha hb => ha.denotes.join hb.denotes (fun _ _ => .and) fun _ _ => rfl
  | .not ha => ha.denotes.not
  | .cmp op ha hb => ha.denotes.join hb.denotes (fun _ _ => .cmp op) fun _ _ => rfl
  | .mod ha hb => ha.denotes.join hb.denotes (fun _ _ => .mod) fun _ _ => rfl

end

/-- An operand is put in parentheses where its operator is too loose. -/
theorem Spells.exists_writes (h : Spells e ts) (l : Level) : ∃ us, Writes l e us := by
  by_cases hl : e.level.rank ≤ l.rank
  · exact ⟨ts, .bare hl h⟩
  · exact ⟨_, .parens (.bare e.level.rank_le h)⟩

private theorem exists_writes (h : ∀ x ∈ e.names, IsName x) (l : Level) : ∃ ts, Writes l e ts := by
  have hleft {a b : Expr} (h : ∀ x ∈ a.names ++ b.names, IsName x) : ∀ x ∈ a.names, IsName x :=
    fun x hx => h x (List.mem_append_left _ hx)
  have hright {a b : Expr} (h : ∀ x ∈ a.names ++ b.names, IsName x) : ∀ x ∈ b.names, IsName x :=
    fun x hx => h x (List.mem_append_right _ hx)
  induction e generalizing l with
  | field x =>
    have hx : IsName x := h x List.mem_cons_self
    exact (Spells.field ⟨x, hx⟩).exists_writes l
  | int n => exact (Spells.int (.ofInt n.toInt) (Literal.value_ofInt n.toInt)).exists_writes l
  | bool b => exact (Spells.bool b).exists_writes l
  | not a ih =>
    obtain ⟨ts, ha⟩ := ih h .negation
    exact (Spells.not ha).exists_writes l
  | or a b iha ihb =>
    obtain ⟨ss, ha⟩ := iha (hleft h) .disjunction
    obtain ⟨ts, hb⟩ := ihb (hright h) .conjunction
    exact (Spells.or ha hb).exists_writes l
  | and a b iha ihb =>
    obtain ⟨ss, ha⟩ := iha (hleft h) .conjunction
    obtain ⟨ts, hb⟩ := ihb (hright h) .negation
    exact (Spells.and ha hb).exists_writes l
  | cmp op a b iha ihb =>
    obtain ⟨ss, ha⟩ := iha (hleft h) .remainder
    obtain ⟨ts, hb⟩ := ihb (hright h) .remainder
    exact (Spells.cmp op ha hb).exists_writes l
  | mod a b iha ihb =>
    obtain ⟨ss, ha⟩ := iha (hleft h) .remainder
    obtain ⟨ts, hb⟩ := ihb (hright h) .atom
    exact (Spells.mod ha hb).exists_writes l

/-- What is written is parsed back, with any blanks between its tokens. -/
theorem parse_of_writes {text : String} (hw : Writes .disjunction e ts) (hs : Spaced ts text.toList) :
    parse text = .ok e := by
  obtain ⟨x, hx, he⟩ := hw.denotes
  rw [parse_of_laid hs hx, he]

/-- An expression can be written, and however it is written and spaced, it is parsed back. -/
theorem parse_written {e : Expr} (h : ∀ x ∈ e.names, IsName x) :
    (∃ ts text, Writes .disjunction e ts ∧ Spaced ts (String.toList text)) ∧
    ∀ ts (text : String), Writes .disjunction e ts → Spaced ts text.toList → parse text = .ok e := by
  refine ⟨?_, ?_⟩
  · obtain ⟨ts, hw⟩ := exists_writes h .disjunction
    let pieces : List (List Char × Token) := ts.map fun t => ([], t)
    have hpieces : pieces.map Prod.snd = ts := by simp [pieces, Function.comp_def]
    have hs := spaced_flatMap pieces (by simp [pieces])
    rw [hpieces, ← String.toList_ofList (l := pieces.flatMap _)] at hs
    exact ⟨ts, _, hw, hs⟩
  · intro ts text hw hs
    exact parse_of_writes hw hs

/-- A negated comparison needs no parentheses, an operand on the right of its own operator does. -/
theorem parse_written_nested :
    parse "!a % (7%b)==-1 && ((true))" =
      .ok (.and (.not (.cmp .eq (.mod (.field "a") (.mod (.int 7) (.field "b"))) (.int (-1))))
        (.bool true)) := by
  let a : Name := ⟨"a", by decide⟩
  let b : Name := ⟨"b", by decide⟩
  let seven : Literal := ⟨false, ['7'], nofun, List.all_eq_true.mp rfl⟩
  let minus : Literal := ⟨true, ['1'], nofun, List.all_eq_true.mp rfl⟩
  let pieces : List (List Char × Token) :=
    [([], .not), ([], .field a), ([' '], .mod), ([' '], .lparen), ([], .int seven), ([], .mod),
      ([], .field b), ([], .rparen), ([], .cmp .eq), ([], .int minus), ([' '], .and),
      ([' '], .lparen), ([], .lparen), ([], .bool true), ([], .rparen), ([], .rparen)]
  have htext : "!a % (7%b)==-1 && ((true))".toList = pieces.flatMap fun p => p.1 ++ p.2.chars := by
    decide +kernel
  have hspaced : Spaced (pieces.map Prod.snd) "!a % (7%b)==-1 && ((true))".toList := by
    rw [htext]
    exact spaced_flatMap pieces (by simp [pieces, isBlank])
  have hseven : Writes .remainder (.int 7) [.int seven] := .bare (by decide) (.int seven rfl)
  have hminus : Writes .remainder (.int (-1)) [.int minus] := .bare (by decide) (.int minus rfl)
  have hinner := Spells.mod hseven (.bare (by decide) (.field b))
  have hright := Writes.parens (l := .atom) (.bare (by decide) hinner)
  have hmod := Spells.mod (.bare (by decide) (.field a)) hright
  have hcmp := Spells.cmp .eq (.bare (by decide) hmod) hminus
  have hnot := Spells.not (.bare (by decide) hcmp)
  have htrue : Writes .disjunction (.bool true) [.bool true] := .bare (by decide) (.bool true)
  have hand := Spells.and (.bare (by decide) hnot) (.parens (.parens htrue))
  have hall : Writes .disjunction _ (pieces.map Prod.snd) := .bare (by decide) hand
  exact (parse_written (by decide)).2 _ _ hall hspaced

end GraphViews.Filter
