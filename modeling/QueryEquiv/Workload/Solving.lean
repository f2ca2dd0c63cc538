import QueryEquiv.Term.Text
import QueryEquiv.Workload

/-!
# Solving and evaluating

Two queries are compared in every way: step by step, with a disambiguation, with everything asserted at
once, by going through the whole cover, and a query with itself. The task is to write out the formulas of the first
comparison and to read the rows of its table from the model.
-/

namespace QueryEquiv.Workload

open Inquiry

/-- A table with a column of each type. -/
def allTypes : Value :=
  .list [keyed "T" "id" "int"
    [("v", "int"), ("s", "varchar"), ("d", "date"), ("t", "time"), ("b", "bool"), ("c", "char")]]

def conditionQueries : List String := ["SELECT id FROM T WHERE v > 5", "SELECT id FROM T WHERE v >= 5"]

/-- Encodes queries in a new workspace, with the goal that their results differ. -/
private def encodeDifference (bound budget : Int) (trees : List Value) (condition : Encoding Unit) :
    Inquiry (List Nat) := do
  encoding (Workspace.start allTypes [] (.int bound) (.int budget) .null)
  encoding condition
  let outputs ← encodeTrees trees
  encoding (Verdict.difference outputs)
  return outputs

/-- Runs an inquiry in a new workspace and comes back to the workspace at hand. -/
private def apart (x : Inquiry Unit) : Inquiry Unit := do
  let saved ← workspace
  x
  modify ({ · with workspace := saved })

/-- Compares the queries in the remaining ways. -/
private def otherWays (trees : List Value) : Inquiry Unit := do
  encoding (Workspace.start allTypes [] (.int 2) (.int 15) .null)
  match conditionQueries with
  | a :: b :: _ => discard <| Verdict.check {} a b
  | _ => throw .outOfRange
  encoding (Workspace.start allTypes [] (.int 2) (.int 15) .null)
  let _ ← Verdict.disambiguate {} conditionQueries (.int 1)
  let _ ← encodeDifference 2 15 trees (return)
  let _ ← Search.solveAtOnce
  let _ ← encodeDifference 2 15 trees (return)
  let _ ← Search.searchCover
  let outputs ← encodeDifference 2 15 (trees.take 1 ++ trees.take 1) (return)
  discard <| Search.search outputs

/-- The lengths of the script and of the texts of the formulas, and the rows and the decisions of a table. -/
private def evaluation (p : Prover) : Inquiry Value := do
  let script ← encoding Search.script
  let lengths := (← formulas).entries.map fun f ↦ f.term.text.length
  let t ← encoding do Workspace.table (← Workspace.placeOf 0)
  let rows ← Search.rowsOf p t
  let decisions ← Search.choicesOf p t
  return .list ((script.length :: lengths).map (fun (n : Nat) ↦ .int n) ++
    [.list rows, .list (decisions.map Bit.value)])

/-- Solves in every way, and evaluates a table. -/
def solving : Workload where
  parameter := "bound"
  usual := 4
  sizes := [2, 4, 6]
  prepare bound := do
    let trees ← readTrees conditionQueries
    let outputs ← encodeDifference bound 30 trees do
      Workspace.append (.not (.null 0 0 2)) (some "nn")
      let _ ← Workspace.code (.str "hello")
      discard <| Workspace.code (.str "42")
    let found ← Search.search outputs
    apart (otherWays trees)
    match found with
    | some p => return evaluation p
    | none => throw .absentField

end QueryEquiv.Workload
