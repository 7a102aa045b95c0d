import GraphViews.Proofs.Filter.Classification
import Mathlib.Data.List.Basic

/-!
# Where a rejected text could have gone on

Wherever a rule is tried, the text before is the beginning of a filter that has something of the rule next. The
failures that are kept for a rejected text are of rules that were tried at one place, so that the text up to there
could have gone on with any of them.
-/

namespace GraphViews.Filter

/-- The tokens are those of a term of the level. -/
def Level.Covers (l : Level) (ts : List Token) : Prop := ∃ x, Derives l ts x

def Grammatical (s : List Char) : Prop := ∃ ts, Worded ts s ∧ Level.disjunction.Covers ts

def Rule.Covers : Rule → List Token → Prop
  | .eoi, ts => ts = []
  | .orExpr, ts => Level.disjunction.Covers ts
  | .andExpr, ts => Level.conjunction.Covers ts
  | .notExpr, ts => Level.negation.Covers ts
  | .cmpExpr, ts => Level.comparison.Covers ts
  | .modExpr, ts => Level.remainder.Covers ts
  | .cmpOp, ts => ∃ op, ts = [.cmp op]
  | .bool, ts => ∃ b, ts = [.bool b]
  | .int, ts => ∃ l, ts = [.int l]
  | .field, ts => ∃ x, ts = [.field x]

/-- The rule derives the text. It has blanks between its tokens only. -/
def Rule.DerivesText (rule : Rule) (w : List Char) : Prop :=
  ∃ ts, rule.Covers ts ∧ Worded ts w ∧ skipBlank w = w ∧ skipBlank w.reverse = w.reverse

/-- The text goes on to a filter with something that the rule derives next. At the end it is a filter. -/
def Viable (before : List Char) (rule : Rule) : Prop :=
  ∃ w z, rule.DerivesText w ∧ Grammatical (before ++ w ++ z) ∧ (rule = .eoi → z = [])

theorem Laid.spaced {fits : Token → List Char → Prop} {ts : List Token} {s : List Char} (h : Laid fits ts s) :
    Spaced ts s := by
  induction h with
  | blank hb => exact .blank hb
  | token hb _ _ ih => exact .token hb trivial ih

private theorem grammatical_of_spaced {ts : List Token} {s : List Char} (hs : Spaced ts s)
    (h : Level.disjunction.Covers ts) : Grammatical s := by
  obtain ⟨x, hx⟩ := h
  obtain ⟨n, k, hw, -⟩ := wholeText_complete hs hx
  obtain ⟨us, y, hu, hy⟩ := wholeText_sound hw
  exact ⟨us, hu, y, hy⟩

theorem Rule.exists_derivesText (rule : Rule) : ∃ ts w, rule.Covers ts ∧ Worded ts w ∧ rule.DerivesText w := by
  have hone {t : Token} (hc : rule.Covers [t]) (hw : t.WholeBefore [])
      (ht : skipBlank t.chars.reverse = t.chars.reverse) :
      ∃ ts w, rule.Covers ts ∧ Worded ts w ∧ rule.DerivesText w := by
    have hs : Worded [t] ([] ++ (t.chars ++ [])) := .token nofun hw (.blank nofun)
    rw [List.nil_append, List.append_nil] at hs
    have hblank := skipBlank_chars t []
    rw [List.append_nil] at hblank
    exact ⟨[t], t.chars, hc, hs, [t], hc, hs, hblank, ht⟩
  have hatom : Derives .atom [.bool true] (.bool true) := .bool true
  have hcmp : Derives .comparison [.bool true] (.bool true) := .ofRemainder (.ofAtom hatom)
  have hconj : Derives .conjunction [.bool true] (.bool true) := .ofNegation (.ofComparison hcmp)
  cases rule with
  | eoi => exact ⟨[], [], rfl, .blank nofun, [], rfl, .blank nofun, rfl, rfl⟩
  | orExpr => exact hone ⟨_, .ofConjunction hconj⟩ rfl rfl
  | andExpr => exact hone ⟨_, hconj⟩ rfl rfl
  | notExpr => exact hone ⟨_, .ofComparison hcmp⟩ rfl rfl
  | cmpExpr => exact hone ⟨_, hcmp⟩ rfl rfl
  | modExpr => exact hone ⟨_, .ofAtom hatom⟩ rfl rfl
  | cmpOp => exact hone ⟨.eq, rfl⟩ trivial rfl
  | bool => exact hone ⟨true, rfl⟩ rfl rfl
  | int => exact hone ⟨⟨false, ['0'], by simp, by simp⟩, rfl⟩ trivial rfl
  | field => exact hone ⟨⟨"a", by decide⟩, rfl⟩ trivial (by decide)

/-- The text is laid out from tokens that go on to those of a filter with any tokens that may come next. -/
def Awaits (next : List Token → Prop) (before : List Char) : Prop :=
  ∃ ss us, Spaced ss before ∧ ∀ ts, next ts → Level.disjunction.Covers (ss ++ ts ++ us)

namespace Awaits

variable {next next' : List Token → Prop} {before text s r : List Char} {ss : List Token} {rule : Rule}

theorem blank (h : ∀ c ∈ before, isBlank c = true) : Awaits Level.disjunction.Covers before := by
  refine ⟨[], [], .blank h, ?_⟩
  intro ts hts
  rwa [List.nil_append, List.append_nil]

theorem mono (h : Awaits next before) (hn : ∀ ts, next' ts → next ts) : Awaits next' before := by
  obtain ⟨ss, us, hs, hd⟩ := h
  exact ⟨ss, us, hs, fun ts hts => hd ts (hn ts hts)⟩

private theorem tighter {l m : Level} (h : Awaits l.Covers before) (hone : ∀ ts x, Derives m ts x → Derives l ts x) :
    Awaits m.Covers before := by
  apply h.mono
  intro ts ⟨x, hx⟩
  exact ⟨x, hone ts x hx⟩

/-- Some tokens later the text awaits what these leave open. -/
theorem after (h : Awaits next before) (ht : text = before ++ s) (hb : Begins ss s r) (us : List Token)
    (hn : ∀ ts, next' ts → next (ss ++ ts ++ us)) :
    ∃ before', text = before' ++ skipBlank r ∧ Awaits next' before' := by
  obtain ⟨ss₀, us₀, hs, hd⟩ := h
  obtain ⟨c, hc, hss⟩ := hb.front
  obtain ⟨b, hblank, hr⟩ := exists_blank r
  refine ⟨before ++ (c ++ b), ?_, ss₀ ++ (ss ++ []), us ++ us₀,
    spaced_append hs (spaced_append hss (.blank hblank)), ?_⟩
  · rw [ht, hc, List.append_assoc, List.append_assoc, ← hr]
  · intro ts hts
    have hall := hd _ (hn ts hts)
    simpa only [List.append_nil, List.append_assoc] using hall

/-- Whatever a rule derives that may come next, the text can go on with. -/
theorem viable (h : Awaits next before) (hn : ∀ ts, rule.Covers ts → next ts) (hr : rule ≠ .eoi) :
    Viable before rule := by
  obtain ⟨ss, us, hs, hd⟩ := h
  obtain ⟨ts, w, hts, hw, hrule⟩ := rule.exists_derivesText
  have hus := spaced_flatMap (us.map fun t => ([], t)) (by simp)
  rw [List.map_map] at hus
  have hall := spaced_append (spaced_append hs hw.spaced) hus
  refine ⟨w, _, hrule, grammatical_of_spaced hall ?_, fun he => absurd he hr⟩
  simpa [Function.comp_def] using hd ts (hn ts hts)

end Awaits

/-- The failures are of rules that the text up to one place could go on with. Where there are none it is the first. -/
def Live (text : List Char) (a : Attempts) : Prop :=
  ∃ before rest, text = before ++ rest ∧ a.left = rest.length ∧ (a.rules = [] → before = []) ∧
    ∀ rule ∈ a.rules, Viable before rule

namespace Live

variable {text before s : List Char} {a : Attempts} {rule : Rule} {n : Nat}

theorem start (text : List Char) : Live text ⟨text.length, []⟩ :=
  ⟨[], text, rfl, rfl, fun _ => rfl, nofun⟩

theorem record (h : Live text a) (ht : text = before ++ s) (hv : Viable before rule) :
    Live text (a.record rule s.length n) := by
  obtain ⟨before₀, rest, ht₀, hleft, hnil, hall⟩ := h
  unfold Attempts.record
  split
  case isTrue => exact ⟨before₀, rest, ht₀, hleft, hnil, hall⟩
  case isFalse =>
    split
    case isTrue =>
      refine ⟨before, s, ht, rfl, nofun, ?_⟩
      intro r hr
      rwa [List.mem_singleton.mp hr]
    case isFalse =>
      split
      case isTrue heq =>
        -- There is one place in a text with so many characters to go.
        have hb : before = before₀ := (List.append_inj' (ht.symm.trans ht₀) (heq.trans hleft)).1
        refine ⟨before, s, ht, rfl, by simp, ?_⟩
        intro r hr
        rcases List.mem_append.mp hr with hr | hr
        · rw [hb]
          exact hall r (List.mem_of_mem_take hr)
        · rwa [List.mem_singleton.mp hr]
      case isFalse => exact ⟨before₀, rest, ht₀, hleft, hnil, hall⟩

/-- The place that is reported is the one of the failures. -/
theorem viable_ofAttempts (h : Live text a) :
    (ParseFailure.ofAttempts text a).before ++ (ParseFailure.ofAttempts text a).after = text ∧
      ∀ r ∈ a.rules, Viable (ParseFailure.ofAttempts text a).before r := by
  obtain ⟨before, rest, ht, hleft, -, hall⟩ := h
  have hplace : text.length - a.left = before.length := by
    rw [ht, hleft, List.length_append, Nat.add_sub_cancel]
  refine ⟨List.take_append_drop _ _, ?_⟩
  rw [ParseFailure.ofAttempts, hplace, ht, List.take_left]
  exact hall

private theorem record_ne_nil (h : Live text (a.record rule s.length n)) (ht : text = before ++ s) :
    (a.record rule s.length n).rules ≠ [] := by
  intro he
  obtain ⟨before₀, rest, ht₀, hleft, hnil, -⟩ := h
  have hlen : text.length = rest.length := by rw [ht₀, hnil he, List.nil_append]
  rw [ht, List.length_append] at hlen
  unfold Attempts.record at he hleft
  split at he
  case isTrue hcount => simp [Attempts.countAt, he] at hcount
  case isFalse hcount =>
    rw [if_neg hcount] at hleft
    split at he
    case isTrue => cases he
    case isFalse hge =>
      rw [if_neg hge] at hleft
      split at he
      case isTrue => simp at he
      case isFalse hne =>
        rw [if_neg hne] at hleft
        omega

end Live

namespace Outcome

variable {o : Outcome} {next : Parser}

private theorem andThen_none (h : o.result = none) : o.andThen next = o := by
  rw [andThen, h]

private theorem attempts_andThen {p : List Node × List Char} (h : o.result = some p) (a : Attempts) :
    (o.andThen next).attempts a = (next p.2).attempts (o.attempts a) := by
  rw [andThen, h]
  rfl

end Outcome

/-- An outcome notes only failures that the text could go on with. -/
def Keeps (text : List Char) (o : Outcome) : Prop := ∀ a, Live text a → Live text (o.attempts a)

namespace Keeps

variable {text before s : List Char} {o : Outcome} {rule : Rule}

theorem plain (rest : Option (List Char)) : Keeps text (.plain rest) := fun _ ha => ha

theorem under (h : Keeps text o) (ht : text = before ++ s) (hv : Viable before rule) :
    Keeps text (o.under rule s) := by
  intro a ha
  unfold Outcome.under
  split
  · exact h a ha
  · exact (h a ha).record ht hv

theorem ne_nil (h : Keeps text (o.under rule s)) (ht : text = before ++ s) (hr : (o.under rule s).result = none)
    {a : Attempts} (ha : Live text a) : ((o.under rule s).attempts a).rules ≠ [] := by
  have hlive := h a ha
  rw [Outcome.result_under, Option.map_eq_none_iff] at hr
  unfold Outcome.under at hlive ⊢
  rw [hr] at hlive ⊢
  exact hlive.record_ne_nil ht

theorem andThen {next : Parser} (h : Keeps text o)
    (hn : ∀ ns r, o.result = some (ns, r) → Keeps text (next r)) : Keeps text (o.andThen next) := by
  intro a ha
  cases hr : o.result with
  | none =>
    rw [Outcome.andThen_none hr]
    exact h a ha
  | some p =>
    rw [Outcome.attempts_andThen hr]
    exact hn p.1 p.2 hr _ (h a ha)

theorem orElse {other : Unit → Outcome} (h : Keeps text o) (ho : Keeps text (other ())) :
    Keeps text (o.orElse other) := by
  intro a ha
  unfold Outcome.orElse
  split
  · exact h a ha
  · exact ho _ (h a ha)

end Keeps

/-- Where a term of the level is awaited, the parser notes only failures that the text could go on with. -/
def Tracks (p : Parser) (l : Level) : Prop :=
  ∀ text before s, text = before ++ s → Awaits l.Covers before → Keeps text (p s)

variable {inner operand : Parser}

private theorem tracks_parenthesised (h : Tracks inner .disjunction) : Tracks (parenthesised inner) .atom := by
  intro text before s ht ha
  unfold parenthesised
  split
  case h_1 r =>
    have hparens (ts : List Token) (hts : Level.disjunction.Covers ts) :
        Level.atom.Covers ([.lparen] ++ ts ++ [.rparen]) := by
      obtain ⟨x, hx⟩ := hts
      exact ⟨x, .parens hx⟩
    obtain ⟨before', ht', ha'⟩ := ha.after ht (.token (t := .lparen) rfl trivial) [.rparen] hparens
    apply Keeps.andThen (h text before' _ ht' ha')
    intro ns r' _
    split <;> exact .plain _
  case h_2 => exact .plain _

private theorem tracks_atom (h : Tracks inner .disjunction) : Tracks (atom inner) .atom := by
  intro text before s ht ha
  have hleaf (rule : Rule) (read : List Char → Option (List Char)) (hr : rule ≠ .eoi)
      (hc : ∀ ts, rule.Covers ts → Level.atom.Covers ts) : Keeps text (leaf rule read s) :=
    (Keeps.plain (read s)).under ht (ha.viable hc hr)
  apply (hleaf .bool boolean? nofun ?_).orElse
  · apply (hleaf .int integer? nofun ?_).orElse
    · apply (hleaf .field field? nofun ?_).orElse
      · exact tracks_parenthesised h text before s ht ha
      · rintro _ ⟨x, rfl⟩
        exact ⟨_, .field x⟩
    · rintro _ ⟨l, rfl⟩
      exact ⟨_, .int l⟩
  · rintro _ ⟨b, rfl⟩
    exact ⟨_, .bool b⟩

private theorem tracks_chainFrom {l m : Level} {t : Token} {join : Raw → Raw → Raw} (h : Tracks operand m)
    (hop : Sound operand m) (ht : ∀ r, t.WholeBefore r)
    (hjoin : ∀ ss ts x y, Derives l ss x → Derives m ts y → Derives l (ss ++ t :: ts) (join x y))
    {text before s₀ s : List Char} {ss : List Token} {x : Raw} (htext : text = before ++ s₀)
    (ha : Awaits l.Covers before) (hx : Derives l ss x) (hs : Begins ss s₀ s) :
    Keeps text (chainFrom t.chars operand s) := by
  -- Each step leaves a shorter text.
  induction hn : s.length using Nat.strongRecOn generalizing ss s x with
  | ind n ih =>
    rw [chainFrom]
    split
    case h_1 => exact .plain _
    case h_2 r hsym =>
      have hsymbol : Begins [t] s r := .of_skipBlank (.token (strip?_eq_some.mp hsym) (ht r))
      have hgo (ts : List Token) (hts : m.Covers ts) : l.Covers (ss ++ [t] ++ ts ++ []) := by
        obtain ⟨y, hy⟩ := hts
        exact ⟨join x y, by simpa using hjoin ss ts x y hx hy⟩
      obtain ⟨before', ht', ha'⟩ := ha.after htext (hs.trans hsymbol) [] hgo
      apply Keeps.orElse _ (.plain _)
      apply Keeps.andThen (h text before' _ ht' ha')
      intro ns r' hr'
      split
      case isTrue hlt =>
        obtain ⟨ts, y, hy, hts⟩ := hop _ _ _ hr'
        have hall : Begins (ss ++ t :: ts) s₀ r' := hs.trans (hsymbol.trans hts.of_skipBlank)
        exact ih r'.length (hn ▸ hlt) (hjoin ss ts x y hx hy) hall rfl
      case isFalse => exact .plain _

private theorem tracks_chain {l m : Level} {t : Token} {join : Raw → Raw → Raw} (h : Tracks operand m)
    (hop : Sound operand m) (ht : ∀ r, t.WholeBefore r) (hone : ∀ ts x, Derives m ts x → Derives l ts x)
    (hjoin : ∀ ss ts x y, Derives l ss x → Derives m ts y → Derives l (ss ++ t :: ts) (join x y)) :
    Tracks (chain t.chars operand) l := by
  intro text before s htext ha
  apply Keeps.andThen
  · exact h text before s htext (ha.tighter hone)
  · intro ns r hr
    obtain ⟨ss, x, hx, hss⟩ := hop _ _ _ hr
    exact tracks_chainFrom h hop ht hjoin htext ha (hone ss x hx) hss

theorem Tracks.under {p : Parser} {l : Level} {rule : Rule} (h : Tracks p l)
    (hc : ∀ ts, rule.Covers ts → l.Covers ts) (hr : rule ≠ .eoi) : Tracks (fun s => (p s).under rule s) l :=
  fun text before s ht ha => (h text before s ht ha).under ht (ha.viable hc hr)

private theorem tracks_remainder (h : Tracks inner .disjunction) (hs : Sound inner .disjunction) :
    Tracks (remainder inner) .remainder :=
  (tracks_chain (t := .mod) (tracks_atom h) (sound_atom hs) (fun _ => trivial) (fun _ _ => .ofAtom)
    fun _ _ _ _ => .mod).under (fun _ => id) nofun

private theorem tracks_comparison (h : Tracks inner .disjunction) (hs : Sound inner .disjunction) :
    Tracks (comparison inner) .comparison := by
  suffices hsides : Tracks (fun s => (remainder inner s).andThen (comparisonFrom inner)) .comparison from
    hsides.under (fun _ => id) nofun
  intro text before s ht ha
  have hremainder := tracks_remainder h hs
  apply Keeps.andThen
  · exact hremainder text before s ht (ha.tighter fun _ _ => .ofRemainder)
  intro ns r hr
  obtain ⟨ss, x, hx, hss⟩ := sound_remainder hs _ _ _ hr
  apply Keeps.orElse _ (.plain _)
  apply Keeps.andThen
  · have hop (ts : List Token) (hts : Rule.cmpOp.Covers ts) : Level.comparison.Covers (ss ++ ts ++ [.bool true]) := by
      obtain ⟨op, rfl⟩ := hts
      exact ⟨_, by simpa using Derives.cmp op hx (.ofAtom (.bool true))⟩
    obtain ⟨before', ht', ha'⟩ := ha.after ht hss _ hop
    exact (Keeps.plain _).under ht' (ha'.viable (fun _ => id) nofun)
  intro ks r' hr'
  obtain ⟨op, hop⟩ := cmpOp?_eq_some (leaf_eq_some hr')
  have hsymbol : Begins [.cmp op] r r' := .of_skipBlank (.token hop trivial)
  have hgo (ts : List Token) (hts : Level.remainder.Covers ts) :
      Level.comparison.Covers (ss ++ [.cmp op] ++ ts ++ []) := by
    obtain ⟨y, hy⟩ := hts
    exact ⟨_, by simpa using Derives.cmp op hx hy⟩
  obtain ⟨before', ht', ha'⟩ := ha.after ht (hss.trans hsymbol) [] hgo
  exact hremainder text before' _ ht' ha'

private theorem tracks_negation (h : Tracks inner .disjunction) (hs : Sound inner .disjunction) :
    Tracks (negation inner) .negation := by
  intro text before s ht ha
  induction hn : s.length using Nat.strongRecOn generalizing before s with
  | ind n ih =>
    have hplain : Keeps text (comparison inner s) :=
      tracks_comparison h hs text before s ht (ha.tighter fun _ _ => .ofComparison)
    have hviable : Viable before .notExpr := ha.viable (fun _ => id) nofun
    unfold negation
    split
    case h_1 r =>
      have hgo (ts : List Token) (hts : Level.negation.Covers ts) :
          Level.negation.Covers ([.not] ++ ts ++ []) := by
        obtain ⟨x, hx⟩ := hts
        exact ⟨_, by simpa using Derives.not hx⟩
      obtain ⟨before', ht', ha'⟩ := ha.after ht (.token (t := .not) rfl trivial) [] hgo
      have hlt : (skipBlank r).length < n := by
        have := skipBlank_length_le r
        simp at hn
        omega
      apply Keeps.under _ ht hviable
      apply Keeps.orElse
      · exact ih _ hlt before' _ ht' ha' rfl
      · exact hplain
    case h_2 => exact hplain.under ht hviable

private theorem tracks_conjunction (h : Tracks inner .disjunction) (hs : Sound inner .disjunction) :
    Tracks (conjunction inner) .conjunction :=
  (tracks_chain (t := .and) (tracks_negation h hs) (sound_negation hs) (fun _ => trivial) (fun _ _ => .ofNegation)
    fun _ _ _ _ => .and).under (fun _ => id) nofun

private theorem tracks_disjunction (h : Tracks inner .disjunction) (hs : Sound inner .disjunction) :
    Tracks (disjunction inner) .disjunction :=
  (tracks_chain (t := .or) (tracks_conjunction h hs) (sound_conjunction hs) (fun _ => trivial)
    (fun _ _ => .ofConjunction) fun _ _ _ _ => .or).under (fun _ => id) nofun

private theorem sound_shorter (n : Nat) : Sound (shorter n) .disjunction := by
  intro s ns r h
  unfold shorter at h
  split at h
  · exact sound_expression s ns r h
  · cases h

theorem tracks_expression : Tracks expression .disjunction := by
  intro text before s ht ha
  induction hn : s.length using Nat.strongRecOn generalizing text before s with
  | ind n ih =>
    -- What is read in parentheses has fewer characters.
    have hinner : Tracks (shorter s.length) .disjunction := by
      intro text' before' s' ht' ha'
      unfold shorter
      split
      case isTrue hlt => exact ih _ (hn ▸ hlt) text' before' s' ht' ha' rfl
      case isFalse => exact .plain _
    rw [expression_eq]
    exact tracks_disjunction hinner (sound_shorter _) text before s ht ha

theorem Rule.name_injective : Function.Injective Rule.name := by
  intro r s h
  cases r <;> cases s <;> first | rfl | exact absurd h (by decide)

theorem ParseFailure.name_mem_expectedNames {e : ParseFailure} {rule : Rule} :
    rule.name ∈ e.expectedNames ↔ rule ∈ e.expected := by
  have hall : rule ∈ Rule.all := by cases rule <;> decide
  rw [expectedNames, List.mem_map_of_injective Rule.name_injective, List.mem_filter, List.contains_iff_mem]
  exact and_iff_right hall

/-- The text could end behind a whole expression. -/
theorem Begins.viable_eoi {text r : List Char} {ts : List Token} (h : Begins ts text r)
    (hts : Level.disjunction.Covers ts) : ∃ before, text = before ++ skipBlank r ∧ Viable before .eoi := by
  obtain ⟨c, hc, hs⟩ := h.front
  obtain ⟨b, hb, hr⟩ := exists_blank r
  have hs : Spaced (ts ++ []) (c ++ b) := spaced_append hs (.blank hb)
  rw [List.append_nil] at hs
  refine ⟨c ++ b, by rw [hc, List.append_assoc, ← hr], [], [], ⟨[], rfl, .blank nofun, rfl, rfl⟩, ?_, fun _ => rfl⟩
  rw [List.append_nil, List.append_nil]
  exact grammatical_of_spaced hs hts

/-- The failures that are kept for a rejected text: there are some, and the text could go on with them. -/
theorem live_wholeText {text : List Char} (h : (wholeText text).result = none) :
    Live text ((wholeText text).attempts ⟨text.length, []⟩) ∧
      ((wholeText text).attempts ⟨text.length, []⟩).rules ≠ [] := by
  have hstart := Live.start text
  obtain ⟨b, hb, ht⟩ := exists_blank text
  have hexpr := tracks_expression text b _ ht (.blank hb)
  rw [wholeText] at h ⊢
  cases hr : (expression (skipBlank text)).result with
  | none =>
    rw [Outcome.andThen_none hr]
    refine ⟨hexpr _ hstart, ?_⟩
    rw [expression_eq] at hr hexpr ⊢
    exact hexpr.ne_nil ht hr hstart
  | some p =>
    obtain ⟨ts, x, hx, hts⟩ := sound_expression _ _ _ hr
    obtain ⟨before, htext, hviable⟩ := hts.of_skipBlank.viable_eoi ⟨x, hx⟩
    have hend := (Keeps.plain (if skipBlank p.2 = [] then some [] else none)).under htext hviable
    have hlive := hexpr _ hstart
    rw [Outcome.result_andThen, hr] at h
    rw [Outcome.attempts_andThen hr]
    exact ⟨hend _ hlive, hend.ne_nil htext (by simpa using h) hlive⟩

/-- A text that is no filter is reported at a place in it. Some rules are expected there, and behind what stands before
the place each of them has a text that some filter goes on with; the end is expected only if that is a filter. -/
theorem parse_failure_goes_on (text : String) (h : ¬Grammatical text.toList) :
    ∃ e, parse text = .error (.unparsable e) ∧ e.before ++ e.after = text.toList ∧ e.expected ≠ [] ∧
      (∀ rule ∈ e.expected, ∃ w z, rule.DerivesText w ∧ Grammatical (e.before ++ w ++ z)) ∧
      (∃ z, Grammatical (e.before ++ z)) ∧ (.eoi ∈ e.expected → Grammatical e.before) ∧
      ∀ rule : Rule, rule.name ∈ e.expectedNames ↔ rule ∈ e.expected := by
  have hrejected : (wholeText text.toList).result = none := by
    apply wholeText_eq_none
    intro ⟨ts, x, hs, hx⟩
    exact h ⟨ts, hs, x, hx⟩
  obtain ⟨hlive, hne⟩ := live_wholeText hrejected
  obtain ⟨hplace, hall⟩ := hlive.viable_ofAttempts
  refine ⟨_, parse_of_rejected hrejected, hplace, hne, ?_, ?_, ?_, fun _ => ParseFailure.name_mem_expectedNames⟩
  · intro rule hrule
    obtain ⟨w, z, hderives, hgram, -⟩ := hall rule hrule
    exact ⟨w, z, hderives, hgram⟩
  · obtain ⟨rule, hrule⟩ := List.exists_mem_of_ne_nil _ hne
    obtain ⟨w, z, -, hgram, -⟩ := hall rule hrule
    rw [List.append_assoc] at hgram
    exact ⟨w ++ z, hgram⟩
  · intro hend
    obtain ⟨w, z, ⟨ts, rfl, hw, hblank, -⟩, hgram, hz⟩ := hall .eoi hend
    -- Without tokens and outer blanks nothing is left of the text.
    rw [hw.skipBlank_eq_nil] at hblank
    rwa [hz rfl, ← hblank, List.append_nil, List.append_nil] at hgram

/-- In `(1 2)` a comparison could go on behind `(1 `, but the text could not end there; in `1 2` it could. -/
theorem parse_failure_goes_on_operands :
    parse "(1 2)" = .error (.unparsable ⟨['(', '1', ' '], ['2', ')'], [.cmpOp]⟩) ∧
    (∃ w z, Rule.cmpOp.DerivesText w ∧ Grammatical (['(', '1', ' '] ++ w ++ z)) ∧
    parse "1 2" = .error (.unparsable ⟨['1', ' '], ['2'], [.cmpOp, .eoi]⟩) ∧ Grammatical ['1', ' '] := by
  have hnot {s : List Char} (h : (wholeText s).result.isNone = true) : ¬Grammatical s := by
    intro ⟨ts, hs, x, hx⟩
    obtain ⟨n, k, hw, -⟩ := wholeText_complete hs hx
    rw [hw] at h
    cases h
  have hopen : (wholeText "(1 2)".toList).result.isNone = true := by decide +kernel
  have hplain : (wholeText "1 2".toList).result.isNone = true := by decide +kernel
  have hopened : parse "(1 2)" = .error (.unparsable ⟨['(', '1', ' '], ['2', ')'], [.cmpOp]⟩) := by
    rw [parse_of_rejected (Option.isNone_iff_eq_none.mp hopen)]
    congr 2
    decide +kernel
  have hplained : parse "1 2" = .error (.unparsable ⟨['1', ' '], ['2'], [.cmpOp, .eoi]⟩) := by
    rw [parse_of_rejected (Option.isNone_iff_eq_none.mp hplain)]
    congr 2
    decide +kernel
  refine ⟨hopened, ?_, hplained, ?_⟩
  · obtain ⟨e, he, -, -, hall, -⟩ := parse_failure_goes_on "(1 2)" (hnot hopen)
    cases hopened.symm.trans he
    exact hall .cmpOp (by simp)
  · obtain ⟨e, he, -, -, -, -, hend, -⟩ := parse_failure_goes_on "1 2" (hnot hplain)
    cases hplained.symm.trans he
    exact hend (by simp)

end GraphViews.Filter
