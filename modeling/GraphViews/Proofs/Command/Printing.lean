import GraphViews.Proofs.Command.Results
import GraphViews.Proofs.Lasting
import GraphViews.Proofs.Record.Selection

/-!
# Printing in order

A command prints its tables before it counts what they show. That comes to the same as printing all of it at the end,
because what has been listed can be counted.
-/

namespace GraphViews.Command

open GraphViews.Graph GraphViews.Record Fallible

/-- Steps of a command over what they have printed, which stays there if a later step fails. -/
abbrev Printing (α : Type) := Lasting Failure String α

namespace Printing

def silently {α : Type} (s : Step α) : Printing α := .ask fun _ => s.result

def print (text : String) : Printing Unit := .change fun printed => printed ++ text

def view (w : DataView) : Printing Unit := do
  let snapshot ← silently (ofFault (Snapshot.ofView w))
  print snapshot.text
  let summary ← silently (ofFault (Summary.ofView w))
  print (summary.text ++ "\n")

def perform (files : String → Tables.Database) (r : Request) : Printing Unit := do
  let g ← silently (openGraph files r)
  let w ← silently (r.task.view g)
  view w

/-- What was to be printed at the end, on its own. -/
def atOnce (result : Except Failure String) : Except Failure Unit × String :=
  Lasting.settled "" (result.map fun text => ((), text))

private theorem view_on (w : DataView) : (view w).on "" = atOnce (ofFault (printed w)).result := by
  cases hs : Snapshot.ofView w with
  | error f => simp [view, silently, printed, ofFault, atOnce, hs, Except.map]
  | ok s =>
    have ht := Summary.ofView_of_snapshot hs
    simp [view, silently, print, printed, ofFault, atOnce, hs, ht, Except.map, String.append_assoc]

/-- A command leaves the same on its output as if it printed nothing before everything has succeeded. -/
theorem perform_on (files : String → Tables.Database) (r : Request) :
    (perform files r).on "" = atOnce (Command.perform files r).result := by
  rw [result_perform_eq]
  cases hg : (openGraph files r).result with
  | error e => simp [perform, silently, atOnce, hg, Except.map]
  | ok g =>
    cases hw : (r.task.view g).result with
    | error e => simp [perform, silently, atOnce, hg, hw, Except.map]
    | ok w => simp [perform, silently, hg, hw, view_on]

end Printing

end GraphViews.Command
