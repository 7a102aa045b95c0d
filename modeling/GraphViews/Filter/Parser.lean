import GraphViews.Filter.Outcome

/-!
# The filter grammar

A disjunction joins conjunctions, a conjunction joins negations, a negation is marked or a comparison, a
comparison has one or two sides, and a side is a chain of remainders of atoms.
-/

namespace GraphViews.Filter

def isWordChar (c : Char) : Bool := c.isAlphanum || c == '_'

/-- A word counts only where it does not go on. -/
def wholeWord? (word s : List Char) : Option (List Char) :=
  match strip? word s with
  | some r => if r.head?.any isWordChar then none else some r
  | none => none

def boolean? (s : List Char) : Option (List Char) :=
  match wholeWord? ['t', 'r', 'u', 'e'] s with
  | some r => some r
  | none => wholeWord? ['f', 'a', 'l', 's', 'e'] s

def digits? (s : List Char) : Option (List Char) :=
  if s.head?.any Char.isDigit then some (s.dropWhile Char.isDigit) else none

def integer? (s : List Char) : Option (List Char) :=
  match s with
  | '-' :: r => digits? r
  | s => digits? s

def field? (s : List Char) : Option (List Char) :=
  if s.head?.any Char.isAlpha then some (s.dropWhile isWordChar) else none

/-- Two-character comparisons come first. -/
def cmpOp? (s : List Char) : Option (List Char) :=
  match s with
  | '=' :: '=' :: r => some r
  | '!' :: '=' :: r => some r
  | '<' :: '=' :: r => some r
  | '>' :: '=' :: r => some r
  | '<' :: r => some r
  | '>' :: r => some r
  | _ => none

def leaf (rule : Rule) (read : List Char → Option (List Char)) : Parser := fun s =>
  (Outcome.plain (read s)).under rule s

def parenthesised (inner : Parser) : Parser := fun s =>
  match s with
  | '(' :: r =>
    (inner (skipBlank r)).andThen fun r' =>
      match skipBlank r' with
      | ')' :: rest => .plain (some rest)
      | _ => .plain none
  | _ => .plain none

def atom (inner : Parser) : Parser := fun s =>
  (leaf .bool boolean? s).orElse fun _ =>
    (leaf .int integer? s).orElse fun _ =>
      (leaf .field field? s).orElse fun _ => parenthesised inner s

/-- What follows the first operands of a chain. -/
def chainFrom (symbol : List Char) (operand : Parser) (s : List Char) : Outcome :=
  match strip? symbol (skipBlank s) with
  | none => .plain (some s)
  | some r =>
    ((operand (skipBlank r)).andThen fun r' =>
      if r'.length < s.length then chainFrom symbol operand r' else .plain none).orElse
      fun _ => .plain (some s)
termination_by s.length

/-- Operands with `symbol` between them. -/
def chain (symbol : List Char) (operand : Parser) : Parser :=
  fun s => (operand s).andThen (chainFrom symbol operand)

def remainder (inner : Parser) : Parser := fun s =>
  (chain ['%'] (atom inner) s).under .modExpr s

/-- The second side of a comparison; without an operator there is none. -/
def comparisonFrom (inner : Parser) : Parser := fun s =>
  ((leaf .cmpOp cmpOp? (skipBlank s)).andThen fun r => remainder inner (skipBlank r)).orElse
    fun _ => .plain (some s)

def comparison (inner : Parser) : Parser := fun s =>
  ((remainder inner s).andThen (comparisonFrom inner)).under .cmpExpr s

def negation (inner : Parser) (s : List Char) : Outcome :=
  match s with
  | '!' :: r =>
    ((negation inner (skipBlank r)).orElse fun _ => comparison inner ('!' :: r)).under .notExpr ('!' :: r)
  | s => (comparison inner s).under .notExpr s
termination_by s.length
decreasing_by
  have := skipBlank_length_le r
  simp
  omega

def conjunction (inner : Parser) : Parser := fun s =>
  (chain ['&', '&'] (negation inner) s).under .andExpr s

def disjunction (inner : Parser) : Parser := fun s =>
  (chain ['|', '|'] (conjunction inner) s).under .orExpr s

/-- A text in parentheses is shorter than the text around it. -/
def expression (s : List Char) : Outcome :=
  disjunction (fun r => if r.length < s.length then expression r else .plain none) s
termination_by s.length

def wholeText (s : List Char) : Outcome :=
  (expression (skipBlank s)).andThen fun r =>
    (Outcome.plain (if skipBlank r = [] then some [] else none)).under .eoi (skipBlank r)

end GraphViews.Filter
