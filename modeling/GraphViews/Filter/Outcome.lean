import GraphViews.Filter.Rule

/-! # Parsers over characters: the parts read, the rest of the text, and the rules that failed on the way -/

namespace GraphViews.Filter

/-- A part of a text: the rule it was read by, and the parts in it that rules were read by. -/
inductive Node where
  | mk (rule : Rule) (text : String) (inner : List Node)

def Node.rule : Node → Rule
  | mk rule _ _ => rule

/-- What comes of reading a text: parts and the rest of the text, and the failures to be noted. -/
structure Outcome where
  result : Option (List Node × List Char)
  attempts : Attempts → Attempts

abbrev Parser := List Char → Outcome

namespace Outcome

/-- A result without parts, and that no rule has failed for. -/
def plain (rest : Option (List Char)) : Outcome := ⟨rest.map fun r => ([], r), id⟩

def after (o : Outcome) (earlier : Attempts → Attempts) : Outcome :=
  ⟨o.result, fun a => o.attempts (earlier a)⟩

/-- Makes what was read from `s` on one part, or notes a failure of `rule`, which began at `s`. -/
def under (o : Outcome) (rule : Rule) (s : List Char) : Outcome :=
  match o.result with
  | some (inner, r) =>
    let text := String.ofList (s.take (s.length - r.length))
    ⟨some ([⟨rule, text, inner⟩], r), o.attempts⟩
  | none =>
    let here := s.length
    ⟨none, fun a => (o.attempts a).record rule here (a.countAt here)⟩

/-- Goes on after a result. -/
def andThen (o : Outcome) (next : Parser) : Outcome :=
  match o.result with
  | some (ns, r) =>
    let o' := (next r).after o.attempts
    ⟨o'.result.map fun p => (ns ++ p.1, p.2), o'.attempts⟩
  | none => o

def orElse (o : Outcome) (other : Unit → Outcome) : Outcome :=
  match o.result with
  | some _ => o
  | none => (other ()).after o.attempts

end Outcome

/-- Between two parts of a text, blanks, tabs and line ends do not count. -/
def isBlank (c : Char) : Bool :=
  c == ' ' || c == '\t' || c == '\r' || c == '\n'

def skipBlank (s : List Char) : List Char := s.dropWhile isBlank

/-- The rest of a text after `word`. -/
def strip? : List Char → List Char → Option (List Char)
  | [], s => some s
  | _ :: _, [] => none
  | c :: word, d :: s => if c = d then strip? word s else none

theorem skipBlank_length_le (s : List Char) : (skipBlank s).length ≤ s.length :=
  (List.dropWhile_sublist isBlank).length_le

end GraphViews.Filter
