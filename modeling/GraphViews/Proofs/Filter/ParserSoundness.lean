import GraphViews.Proofs.Filter.Lexemes
import GraphViews.Proofs.Filter.ParserResults

/-!
# What is read is a filter

Each parser takes the tokens of its level from the front of a text and gives back the term that they derive.
-/

namespace GraphViews.Filter

/-- The text is the tokens, laid out in front of what is left. Where that is laid out too, as whole words, so is all of
the text. -/
structure Begins (ts : List Token) (s r : List Char) : Prop where
  front : ∃ c, s = c ++ r ∧ Spaced ts c
  worded : ∀ us, Worded us r → Worded (ts ++ us) s

namespace Begins

variable {ss ts : List Token} {s r q : List Char}

theorem trans (h : Begins ss s r) (h' : Begins ts r q) : Begins (ss ++ ts) s q where
  front := by
    obtain ⟨c, hs, hc⟩ := h.front
    obtain ⟨d, hr, hd⟩ := h'.front
    exact ⟨c ++ d, by rw [hs, hr, List.append_assoc], spaced_append hc hd⟩
  worded us hu := by
    rw [List.append_assoc]
    exact h.worded _ (h'.worded us hu)

theorem of_skipBlank (h : Begins ts (skipBlank s) r) : Begins ts s r where
  front := by
    obtain ⟨b, hb, hs⟩ := exists_blank s
    obtain ⟨c, hr, hc⟩ := h.front
    exact ⟨b ++ c, by rw [List.append_assoc, ← hr, ← hs], hc.after_blank hb⟩
  worded us hu := (h.worded us hu).of_skipBlank

theorem token {t : Token} (hs : s = t.chars ++ r) (hf : t.WholeBefore r) : Begins [t] s r where
  front := by
    refine ⟨t.chars, hs, ?_⟩
    have h : Spaced [t] ([] ++ (t.chars ++ [])) := .token nofun trivial (.blank nofun)
    rwa [List.nil_append, List.append_nil] at h
  worded us hu := by
    rw [hs]
    exact .token (b := []) (by simp) hf hu

end Begins

/-- What the parser takes from a text is a term of the level. -/
def Sound (p : Parser) (l : Level) : Prop :=
  ∀ s ns r, (p s).result = some (ns, r) → ∃ ts x, Derives l ts x ∧ Begins ts s r

theorem Sound.under {p q : Parser} {l : Level} {rule : Rule} (h : Sound q l)
    (hp : ∀ s, (p s).result = (q s).result.map fun a => ([.between rule s a.2 a.1], a.2)) :
    Sound p l := by
  intro s ns r hns
  rw [hp, Option.map_eq_some_iff] at hns
  obtain ⟨⟨ms, r'⟩, hms, hns⟩ := hns
  cases hns
  exact h _ _ _ hms

variable {inner operand : Parser}

theorem sound_atom (h : Sound inner .disjunction) : Sound (atom inner) .atom := by
  intro s ns r hns
  rw [result_atom, Option.or_eq_some_iff, Option.or_eq_some_iff, Option.or_eq_some_iff] at hns
  rcases hns with hn | ⟨hb, hn | ⟨-, hn | ⟨-, hn⟩⟩⟩
  · obtain ⟨b, hs, hr⟩ := boolean?_eq_some.mp (leaf_eq_some hn)
    exact ⟨[.bool b], _, .bool b, .token hs hr⟩
  · obtain ⟨l, hs⟩ := integer?_eq_some (leaf_eq_some hn)
    exact ⟨[.int l], _, .int l, .token hs trivial⟩
  · obtain ⟨x, hs⟩ := field?_eq_some (leaf_eq_none.mp hb) (leaf_eq_some hn)
    exact ⟨[.field x], _, .field x, .token hs trivial⟩
  · obtain ⟨s', r', rfl, hi, hr⟩ := parenthesised_eq_some.mp hn
    obtain ⟨ts, x, hd, hts⟩ := h _ _ _ hi
    have hopen : Begins [.lparen] ('(' :: s') s' := .token rfl trivial
    have hclose : Begins [.rparen] r' r := .of_skipBlank (.token hr trivial)
    exact ⟨_, x, .parens hd, hopen.trans (hts.of_skipBlank.trans hclose)⟩

/-- A chain adds its operands one by one to a term of its level. -/
theorem sound_chainFrom {l m : Level} {t : Token} {join : Raw → Raw → Raw} (hop : Sound operand m)
    (ht : ∀ r, t.WholeBefore r)
    (hjoin : ∀ ss ts x y, Derives l ss x → Derives m ts y → Derives l (ss ++ t :: ts) (join x y))
    {ss : List Token} {s₀ s q : List Char} {x : Raw} {ns : List Node} (hx : Derives l ss x)
    (hs : Begins ss s₀ s) (h : (chainFrom t.chars operand s).result = some (ns, q)) :
    ∃ ts z, Derives l ts z ∧ Begins ts s₀ q := by
  -- Each step leaves a shorter text.
  induction hn : s.length using Nat.strongRecOn generalizing ss s x ns with
  | ind n ih =>
    rcases chainFrom_cases h with rfl | ⟨r, ms, ms', r', hsym, hms, hlt, hms'⟩
    · exact ⟨ss, x, hx, hs⟩
    · obtain ⟨ts, y, hd, hts⟩ := hop _ _ _ hms
      have hop : Begins [t] s r := .of_skipBlank (.token (strip?_eq_some.mp hsym) (ht r))
      have hall : Begins (ss ++ t :: ts) s₀ r' := hs.trans (hop.trans hts.of_skipBlank)
      exact ih r'.length (hn ▸ hlt) (hjoin ss ts x y hx hd) hall hms' rfl

private theorem sound_chain {l m : Level} {t : Token} {join : Raw → Raw → Raw} (hop : Sound operand m)
    (ht : ∀ r, t.WholeBefore r) (hone : ∀ ts x, Derives m ts x → Derives l ts x)
    (hjoin : ∀ ss ts x y, Derives l ss x → Derives m ts y → Derives l (ss ++ t :: ts) (join x y)) :
    Sound (chain t.chars operand) l := by
  intro s ns r h
  rw [result_chain, Option.bind_eq_some_iff] at h
  obtain ⟨⟨ms, r'⟩, hms, h⟩ := h
  obtain ⟨⟨ms', q⟩, hms', h⟩ := Option.map_eq_some_iff.mp h
  cases h
  obtain ⟨ts, x, hd, hts⟩ := hop _ _ _ hms
  exact sound_chainFrom hop ht hjoin (hone ts x hd) hts hms'

theorem sound_remainder (h : Sound inner .disjunction) : Sound (remainder inner) .remainder :=
  (sound_chain (t := .mod) (sound_atom h) (fun _ => trivial) (fun _ _ => .ofAtom)
    fun _ _ _ _ => .mod).under result_remainder

private theorem sound_comparison (h : Sound inner .disjunction) : Sound (comparison inner) .comparison := by
  intro s ns r hns
  simp only [result_comparison, result_comparisonFrom, Option.map_eq_some_iff,
    Option.bind_eq_some_iff, Option.or_eq_some_iff] at hns
  obtain ⟨⟨_, _⟩, ⟨⟨ms, s'⟩, hms, ⟨ms', q⟩, hq, hall⟩, hns⟩ := hns
  cases hall
  cases hns
  obtain ⟨ss, x, hdx, hss⟩ := sound_remainder h _ _ _ hms
  rcases hq with ⟨⟨ks, r'⟩, hop, ⟨ks', q'⟩, hks', hq⟩ | ⟨-, hq⟩
  · cases hq
    obtain ⟨op, hop⟩ := cmpOp?_eq_some (leaf_eq_some hop)
    obtain ⟨ts, y, hdy, hts⟩ := sound_remainder h _ _ _ hks'
    have hcmp : Begins [.cmp op] s' r' := .of_skipBlank (.token hop trivial)
    exact ⟨_, _, .cmp op hdx hdy, hss.trans (hcmp.trans hts.of_skipBlank)⟩
  · cases hq
    exact ⟨ss, x, .ofRemainder hdx, hss⟩

theorem sound_negation (h : Sound inner .disjunction) : Sound (negation inner) .negation := by
  intro s ns r hns
  induction hn : s.length using Nat.strongRecOn generalizing s ns with
  | ind n ih =>
    have hplain {ms : List Node} (hc : (comparison inner s).result = some (ms, r)) :
        ∃ ts x, Derives .negation ts x ∧ Begins ts s r := by
      obtain ⟨ts, x, hd, hts⟩ := sound_comparison h _ _ _ hc
      exact ⟨ts, x, .ofComparison hd, hts⟩
    by_cases hs : ∃ s', s = '!' :: s'
    · obtain ⟨s', rfl⟩ := hs
      rw [result_negation_marked, Option.map_eq_some_iff] at hns
      obtain ⟨⟨ms, r'⟩, hms, hns⟩ := hns
      cases hns
      rcases Option.or_eq_some_iff.mp hms with hms | ⟨-, hms⟩
      · have hlt : (skipBlank s').length < n := by
          have := skipBlank_length_le s'
          simp at hn
          omega
        obtain ⟨ts, x, hd, hts⟩ := ih _ hlt _ _ hms rfl
        have hnot : Begins [.not] ('!' :: s') s' := .token rfl trivial
        exact ⟨_, _, .not hd, hnot.trans hts.of_skipBlank⟩
      · exact hplain hms
    · rw [result_negation fun s' hs' => hs ⟨s', hs'⟩, Option.map_eq_some_iff] at hns
      obtain ⟨⟨ms, r'⟩, hms, hns⟩ := hns
      cases hns
      exact hplain hms

theorem sound_conjunction (h : Sound inner .disjunction) : Sound (conjunction inner) .conjunction :=
  (sound_chain (t := .and) (sound_negation h) (fun _ => trivial) (fun _ _ => .ofNegation)
    fun _ _ _ _ => .and).under result_conjunction

private theorem sound_disjunction (h : Sound inner .disjunction) : Sound (disjunction inner) .disjunction :=
  (sound_chain (t := .or) (sound_conjunction h) (fun _ => trivial) (fun _ _ => .ofConjunction)
    fun _ _ _ _ => .or).under result_disjunction

theorem sound_expression : Sound expression .disjunction := by
  intro s ns r hns
  induction hn : s.length using Nat.strongRecOn generalizing s ns r with
  | ind n ih =>
    have hinner : Sound (shorter s.length) .disjunction := by
      intro s' ns' r' hns'
      unfold shorter at hns'
      split at hns'
      · rename_i hlt
        exact ih _ (hn ▸ hlt) _ _ _ hns' rfl
      · cases hns'
    rw [expression_eq] at hns
    exact sound_disjunction hinner s ns r hns

/-- A text that is read as a whole is laid out from the tokens of a term. -/
theorem wholeText_sound {s r : List Char} {ns : List Node} (h : (wholeText s).result = some (ns, r)) :
    ∃ ts x, Worded ts s ∧ Derives .disjunction ts x := by
  obtain ⟨-, r', ms, hms, hr, -⟩ := wholeText_eq_some.mp h
  obtain ⟨ts, x, hd, hts⟩ := sound_expression _ _ _ hms
  have hblank : Worded [] r' := .blank (List.dropWhile_eq_nil_iff.mp hr)
  have hall := hts.of_skipBlank.worded [] hblank
  rw [List.append_nil] at hall
  exact ⟨ts, x, hall, hd⟩

/-- Nothing else is read. -/
theorem wholeText_eq_none {s : List Char} (h : ¬∃ ts x, Worded ts s ∧ Derives .disjunction ts x) :
    (wholeText s).result = none := by
  rw [Option.eq_none_iff_forall_not_mem]
  intro ⟨ns, r⟩ hr
  exact h (wholeText_sound hr)

end GraphViews.Filter
