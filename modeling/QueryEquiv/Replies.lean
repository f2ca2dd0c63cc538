import QueryEquiv.Solver
import QueryEquiv.Value.Json

/-!
# Recorded replies

The parser of query text and the solvers stand outside. What they are going to say can be recorded as JSON:
a list of trees for the parser, and for each solver its lines, the contradicting assertions and the
values in its model.
-/

namespace QueryEquiv

private def recorded (v : Value) : List Value :=
  match v with
  | .list xs => xs
  | _ => []

private def recordedText : Value → String
  | .str s => s
  | v => v.text

private def recordedTexts (reply : Value) (key : String) : List String :=
  (recorded ((reply.get? key).getD .null)).map recordedText

private def recordedPairs (reply : Value) (key : String) : List (String × String) :=
  match reply.get? key with
  | some (.object es) => es.map fun (k, v) ↦ (k, recordedText v)
  | _ => []

/-- A parser whose replies are recorded. A reply without a tree is a refusal. -/
def Library.ofRecord (v : Value) : Library :=
  { replies := (recorded v).map fun reply ↦ (reply.get? "value").map Json.unmark }

def SolverReply.ofRecord (v : Value) : SolverReply :=
  { lines := recordedTexts v "lines"
    core := recordedTexts v "core"
    values := recordedPairs v "values"
    defaults := recordedPairs v "defaults" }

def Solvers.ofRecord (v : Value) : Solvers := { replies := (recorded v).map SolverReply.ofRecord }

/-- A request that comes with the replies to it, as `parses` and `solver`. -/
def Asking.ofRecord (workspace : Workspace) (v : Value) : Asking :=
  { workspace
    library := .ofRecord ((v.get? "parses").getD .null)
    solvers := .ofRecord ((v.get? "solver").getD .null) }

end QueryEquiv
