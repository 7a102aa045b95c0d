import GraphViews.Filter.Parser

/-!
# Rejected texts

The report shows the furthest place that was reached, and what was expected there.
-/

namespace GraphViews.Filter

/-- The text around the furthest place that was reached, and the rules that failed there. -/
structure ParseFailure where
  before : List Char
  after : List Char
  expected : List Rule
  deriving DecidableEq

namespace ParseFailure

/-- What is left when reading `text` has failed. -/
def ofAttempts (text : List Char) (a : Attempts) : ParseFailure :=
  let position := text.length - a.left
  ⟨text.take position, text.drop position, a.rules⟩

def isLineEnd (c : Char) : Bool := c == '\n' || c == '\r'

def line (e : ParseFailure) : Nat := 1 + e.before.count '\n'

def lineStart (e : ParseFailure) : List Char :=
  (e.before.reverse.takeWhile (· != '\n')).reverse

def column (e : ParseFailure) : Nat := 1 + e.lineStart.length

def wholeLine (e : ParseFailure) : List Char :=
  e.lineStart ++ e.after.takeWhile (· != '\n') ++ (e.after.dropWhile (· != '\n')).take 1

/-- Line ends are left out, or are shown as pictures when the place is one of them. -/
def shownLine (e : ParseFailure) : List Char :=
  if e.after.head?.any isLineEnd then
    e.wholeLine.map fun c => if c = '\n' then '␊' else if c = '\r' then '␍' else c
  else e.wholeLine.filter fun c => !isLineEnd c

/-- The place is marked under the shown line, at the same column. -/
def underline (e : ParseFailure) : List Char :=
  (e.shownLine.take (e.column - 1)).map (fun c => if c = '\t' then '\t' else ' ') ++
    ['^', '-', '-', '-']

/-- The names of some rules as an enumeration. -/
def enumeration : List String → String
  | [] => ""
  | [a] => a
  | [a, b] => s!"{a} or {b}"
  | names => ", ".intercalate names.dropLast ++ ", or " ++ names.getLastD ""

def expectedNames (e : ParseFailure) : List String :=
  (Rule.all.filter fun r => e.expected.contains r).map Rule.name

def message (e : ParseFailure) : String :=
  let line := toString e.line
  let margin := String.ofList (List.replicate line.length ' ')
  "\n".intercalate
    [s!"{margin}--> {line}:{e.column}",
      s!"{margin} |",
      s!"{line} | {String.ofList e.shownLine}",
      s!"{margin} | {String.ofList e.underline}",
      s!"{margin} |",
      s!"{margin} = expected {enumeration e.expectedNames}"]

end ParseFailure

end GraphViews.Filter
