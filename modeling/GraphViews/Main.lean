import GraphViews.Command.Run
import GraphViews.Tables.Listing

/-! # The program: databases are read from the text of their tables -/

open GraphViews

namespace GraphViews

/-- A database that is not there is empty. -/
def readDatabase (path : String) : IO Tables.Database := do
  try return .ofListing (← IO.FS.readFile path)
  catch _ => return ⟨[]⟩

end GraphViews

def main (args : List String) : IO UInt32 := do
  let db ← match Command.readArguments 0 args with
    | .run _ request => readDatabase request.path
    | _ => pure ⟨[]⟩
  let report := Command.run (fun _ => db) args
  for r in report.records do
    IO.eprintln s!"[{r.level.name} {r.topic.name}] {r.text}"
  IO.print report.stdout
  if let some complaint := report.complaint then IO.eprintln s!"Error: {complaint}"
  return report.code.toUInt32
