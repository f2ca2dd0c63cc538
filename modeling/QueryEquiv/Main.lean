import QueryEquiv.Demonstration
import QueryEquiv.Replies

/-!
# Command line

Runs the demonstrations that are named. The replies of the parser of query text and of the solvers are read
from the first line of the standard input, as JSON.
-/

namespace QueryEquiv

private def demonstrationNamed : String → Option (Inquiry Unit)
  | "comparison" => some Demonstration.compareAges
  | "query" => some Demonstration.readSales
  | "constraints" => some Demonstration.readMissingConstraints
  | "solver" => some Demonstration.askSolver
  | "log" => some Demonstration.showLevels
  | _ => none

/-- The lines that a demonstration shows, with the messages that it logs. -/
private def linesOf (x : Inquiry Unit) (replies : Value) : List String :=
  let (_, a) := x.run.run (.ofRecord {} replies)
  a.workspace.messages.map (·.line (.ofSeconds 0)) ++ a.shown

end QueryEquiv

open QueryEquiv in
def main (args : List String) : IO Unit := do
  let line ← (← IO.getStdin).getLine
  let replies := (Json.read? line).getD .null
  for name in args do
    match demonstrationNamed name with
    | some x => (linesOf x replies).forM fun l ↦ IO.println l
    | none => IO.eprintln s!"no demonstration {name}"
