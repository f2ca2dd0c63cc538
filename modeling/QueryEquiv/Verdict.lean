import QueryEquiv.Ast.OfTree
import QueryEquiv.Disambiguation
import QueryEquiv.Search
import QueryEquiv.Workspace.Load

/-!
# Comparing queries

Two queries are compared by encoding both, asserting that their results differ, and searching for a model:
a model is a database on which they differ, and no model means that they agree on all databases within
the bounds. Several queries are disambiguated in the same way, with the goal that their results fall into
two groups.

A comparison works on a copy of the workspace, so what it encodes is gone afterwards. It reports its
failures as its status. When it has come to an end, the workspace is cleared.
-/

namespace QueryEquiv

/-- The answer to a comparison: whether the queries are equivalent if that was settled, the database on which
they differ, and the report. -/
structure Verdict where
  equivalent : Option Bool
  database : Option (List (String × Value))
  report : Search.Report

/-- How a comparison is carried out: whether everything is asserted at once, and whether it takes longer than
the time that it has. -/
structure Manner where
  atOnce : Bool := false
  overdue : Bool := false

namespace Verdict

open Inquiry

/-- Reads query texts, first all texts and then all trees. -/
def readQueries (queries : List String) : Inquiry (List Node) := do
  let trees ← queries.mapM fun q ↦ dialogue (QueryText.read q)
  let nodes ← trees.mapM fun t ↦ (liftM (Node.ofQueryTree t) : Inquiry Node)
  nodes.mapM fun n ↦ encoding (Workspace.tagged n)

/-- Encodes queries, and gives the tables of their results. -/
def encodeQueries (queries : List Node) : Encoding (List Nat) := do
  let outputs ← queries.zipIdx.mapM fun (n, i) ↦ do
    modify ({ · with currentQuery := .int i })
    Query.table n
  modify ({ · with settled := true })
  return outputs

/-- The goal that two results differ. -/
def difference (outputs : List Nat) : Encoding Unit := do
  match outputs with
  | a :: b :: _ => do Workspace.append (.not (← Results.equal a b)) (some "neq")
  | _ => throw .outOfRange

/-- The goal that the results fall into two groups. -/
def disambiguation (tolerance : Value) (outputs : List Nat) : Encoding Unit := do
  Workspace.append (← Disambiguation.condition outputs tolerance) (some "disambiguation")

/-- A failure becomes the status. -/
def guarded {α : Type} (x : Inquiry α) : Inquiry (Option α) :=
  tryCatch (do return some (← x)) fun _ ↦ do
    note .error "failed"
    record ({ · with status := some .failed })
    return none

def solve (m : Manner) (outputs : List Nat) : Inquiry (Option Prover) := do
  let p ← if m.atOnce then Search.solveAtOnce else Search.search outputs
  record ({ · with completed := true })
  if p.isNone then record ({ · with status := some .equivalent })
  return p

/-- The rows of the tables of the schema. -/
def decode (p : Prover) : Inquiry Unit := do
  let w ← workspace
  let schema ← w.schema.members
  let database ← schema.zipIdx.foldlM (fun (db : List (String × Value)) (t, i) ↦ do
    let place ← encoding (Workspace.placeOf i)
    let rows ← Search.rowsOf p (w.catalog.table place)
    let name ← lowered (← t.entry "TableName")
    return Formulas.put name (.list rows) db) []
  record ({ · with status := some .different, database := some database })

/-- Shows the results of the queries in the model. -/
def noteResults (p : Prover) (outputs : List Nat) : Inquiry Unit :=
  outputs.forM fun o ↦ do
    let t ← encoding (Workspace.table o)
    let rows ← Search.rowsOf p t
    note .debug (Value.list rows).repr

/-- Encodes queries with a goal and searches for a model. -/
def task (m : Manner) (queries : List Node) (goal : List Nat → Encoding Unit) (noted : Bool) :
    Inquiry Unit := do
  let encoded ← guarded (encoding do
    let outputs ← encodeQueries queries
    goal outputs
    return outputs)
  match encoded with
  | none => return
  | some outputs =>
    match ← guarded (solve m outputs) with
    | some (some p) => do
      if noted then noteResults p outputs
      discard <| guarded (decode p)
    | _ => return

/-- Runs a task on a copy of the workspace, if it does not take too long. -/
def run (m : Manner) (task : Inquiry Unit) : Inquiry Unit := do
  record fun _ ↦ {}
  if m.overdue then record ({ · with status := some .timeout, completed := true })
  else
    let saved ← workspace
    tryCatch task fun _ ↦ return
    let messages := (← workspace).messages
    modify fun a ↦ { a with workspace := { saved with messages, catalog := saved.catalog.forget } }

def ofStatus (s : Search.Status) (r : Search.Report) : Verdict :=
  match s with
  | .equivalent => ⟨some true, none, r⟩
  | .different => ⟨some false, r.database, r⟩
  | .failed | .timeout => ⟨none, none, r⟩

/-- Compares two queries. A failure leaves the workspace as it was. -/
def check (m : Manner) (a b : String) : Inquiry Verdict := do
  let queries ← readQueries [a, b]
  run m (task m queries difference true)
  let r := (← get).report
  match r.status with
  | none => throw .absentKey
  | some .failed => return ofStatus .failed r
  | some s => do
    encoding Workspace.clear
    return ofStatus s r

/-- Disambiguates queries. A search that came to no end has no answer. -/
def disambiguate (m : Manner) (queries : List String) (tolerance : Value) : Inquiry Verdict := do
  let queries ← readQueries queries
  run m (task m queries (disambiguation tolerance) false)
  let r := (← get).report
  match r.status with
  | some s =>
    if r.completed then
      encoding Workspace.clear
      return ofStatus s r
    else throw .absentKey
  | none => throw .absentKey

end Verdict

end QueryEquiv
