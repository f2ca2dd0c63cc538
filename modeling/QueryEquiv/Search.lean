import QueryEquiv.Search.Conflict
import QueryEquiv.Search.Cover
import QueryEquiv.Search.Labels
import QueryEquiv.Search.Model

/-!
# The search for a counterexample

Queries are different if the formulas of all their clauses, together with the goal, have a model. The
search does not assert all clauses at once. It starts with the last clause of each query; when these have a
model, the decisions that the model takes are fixed, and further clauses are added.

When there is no model, the decisions of the contradicting clauses are excluded, and new decisions are
looked for that suit these clauses alone: the cover of their decisions is gone through, with everything
but the contradicting clauses left out. If no decisions suit them, there is no counterexample.

Two simpler ways stand beside it: going through the cover of the decisions of all clauses, and asserting
everything at once.
-/

namespace QueryEquiv.Search

open Inquiry

/-! ## Steps -/

/-- A solver under the time limit. -/
def newProver : Inquiry Prover := do
  let limit := (← formulas).timeout.text
  return { options := ["--in", s!"-T:{limit}"] }

def changeFormulas (f : Formulas → Formulas) : Inquiry Unit := encoding (Workspace.changeFormulas f)

/-- Asks a solver whether the assertions have a model. -/
def ask (p : Prover) : Inquiry (Bool × Prover) := do
  let asserted := assertions (← formulas)
  check p (← encoding script) asserted

def consider (label : String) : Inquiry Unit := do
  let considered ← (← formulas).considered.add label
  changeFormulas ({ · with considered })

/-- Fixes the decisions of a clause as they are in the model. -/
def decideAt (p : Prover) (place : Nat) : Inquiry Unit := do
  let t ← encoding (Workspace.table place)
  let vec ← choicesOf p t
  changeFormulas fun fs ↦ { fs with under := Formulas.put t.id vec fs.under }

def decideLabel (p : Prover) (label : String) : Inquiry Unit := do
  match ← encoding (tableOfLabel label) with
  | some place => decideAt p place
  | none => throw .absentKey

def decideIfAny (p : Prover) (label : String) : Inquiry Unit := do
  match ← encoding (tableOfLabel label) with
  | some place => decideAt p place
  | none => return

def coverOf (label : String) (o : Cover.Openness) : Encoding Cover := do
  match ← tableOfLabel label with
  | some place => Cover.ofTable (← Workspace.table place) o
  | none => throw .absentKey

/-! ## Going through a cover -/

/-- The tables of the labels that are about one. -/
def tablesOf : List String → List (Int × Nat) → Inquiry (List (Int × Nat))
  | [], found => return found
  | label :: rest, found => do
    match ← encoding (tableOfLabel label) with
    | none => tablesOf rest found
    | some place => do
      let t ← encoding (Workspace.table place)
      tablesOf rest (Formulas.put t.id place found)

/-- The covers of the decisions of the clauses with the given labels; there has to be a decision. -/
def coversOf (labels : List String) (o : Cover.Openness) : Inquiry (List (Int × Cover)) := do
  let tables ← tablesOf labels []
  if tables.isEmpty then throw .badValue
  tables.mapM fun (id, place) ↦ do
    let t ← encoding (Workspace.table place)
    return (id, ← Cover.ofTable t o)

/-- The first success among the last `k` of `n` numbers. -/
def firstOf {α : Type} (f : Nat → Inquiry (Option α)) (n : Nat) : Nat → Inquiry (Option α)
  | 0 => return none
  | k + 1 => do
    match ← f (n - (k + 1)) with
    | some a => return some a
    | none => firstOf f n k

/-- Tries the combinations of members of the covers until one succeeds; the last cover varies fastest. -/
def attempts {α : Type} (attempt : List (Int × Choices) → Inquiry (Option α)) :
    List (Int × Cover) → List (Int × Choices) → Inquiry (Option α)
  | [], chosen => attempt chosen
  | (t, c) :: rest, chosen =>
    firstOf (fun i ↦ attempts attempt rest (chosen ++ [(t, c.member i)])) c.count c.count

/-! ## Going back -/

def sameChoices (a b : Choices) : Bool := Value.sameList (a.map Bit.value) (b.map Bit.value)

/-- The number of clauses whose decisions differ. -/
def changedDecisions (before after : List (Int × Choices)) : Nat :=
  let changed := before.countP fun (t, vec) ↦
    match after.lookup t with
    | some vec' => !sameChoices vec vec'
    | none => true
  changed + after.countP fun (t, _) ↦ (before.lookup t).isNone

/-- Looks for decisions that suit the contradicting clauses alone. -/
def backtrack (core : List String) : Inquiry Bool := do
  note .debug s!"unsat core: {labelListText core}"
  let p ← newProver
  let fs ← formulas
  changeFormulas ({ · with under := [], considered := .list core })
  let covers ← coversOf core { left := .int 8 }
  let attempt (chosen : List (Int × Choices)) : Inquiry (Option Unit) := do
    changeFormulas ({ · with under := chosen })
    note .debug s!"trying partition {decisionsText chosen}"
    changeFormulas assertDecisions
    let (sat, p) ← ask p
    if sat then
      core.forM (decideIfAny p)
      changeFormulas fun now ↦ assertDecisions { now with considered := fs.considered }
      let changed := changedDecisions fs.under (← formulas).under
      record fun r ↦ { r with changes := r.changes.map (· ++ [changed]) }
      return some ()
    else
      encoding (learn core)
      return none
  return (← attempts attempt covers []).isSome

/-- Finds out the table of each label and looks for decisions that suit the given clauses. -/
def mend (core : List String) : Inquiry (Option Prover) := do
  encoding findTables
  record ({ · with changes := some [] })
  let found ← backtrack core
  record ({ · with mended := some (if found then .bool true else .null) })
  return none

/-! ## The search -/

/-- The figures before the first round. -/
def begin : Inquiry Unit := record fun r ↦
  { r with
    rounds := some 0, backtracks := some 0, goalBacktracks := some 0, coreSizes := some []
    consideredSizes := some [], solved := some 0, changes := some [] }

def countClauses : Inquiry Unit := do
  let n := ((← formulas).tableOf.getD []).length
  record ({ · with clauses := some n })

def countRound : Inquiry Unit := record fun r ↦ { r with rounds := r.rounds.map (· + 1) }

/-- The label of the clause that gives the result of a query. -/
def resultLabel (t : Table) : Outcome (Option String) := do
  let distinct ← t.mentions "Duplicate"
  match t.origin with
  | none => .error .absentField
  | some o =>
    if distinct then
      match o.distinct with
      | some l => return l
      | none => .error .absentField
    else return o.label

def cutBehind (label : Option String) (labels : List String) :
    Outcome (List String × List String) :=
  match label.bind fun l ↦ labels.idxOf? l with
  | some i => .ok (labels.splitAt (i + 1))
  | none => .error .badValue

/-- The labels of the clauses of each query; those behind the last result belong to none. -/
def labelsOfQueries : List Table → List String → Outcome (List (List String))
  | [], _ => .ok []
  | t :: ts, labels => do
    let (own, rest) ← cutBehind (← resultLabel t) labels
    return own :: (← labelsOfQueries ts rest)

/-- The clauses to go on with: those of the first and the last query that are not considered yet, for a
number of times. -/
def nextClauses : Nat → List (List String) → List String × List (List String)
  | 0, remaining => ([], remaining)
  | _ + 1, [] => ([], [])
  | n + 1, first :: rest =>
    match rest.getLast? with
    | none => (first, [])
    | some last =>
      let (more, remaining) := nextClauses n rest.dropLast
      (first ++ last ++ more, remaining)

/-- A conflict stands for the clauses that it is between. -/
def clausesOf (label : String) : Outcome (List String) :=
  if Text.occursIn "conflict" label then
    match label.toList.dropWhile (· != '_') with
    | [] => .error .badValue
    | _ :: names =>
      let (cuts, last) := (Text.Pattern.char '&').cut names
      .ok (cuts.map (fun (before, _) ↦ String.ofList before) ++ [String.ofList last])
  else .ok [label]

/-- Counts a backtrack and gives the contradicting clauses. -/
def countBacktrack (p : Prover) : Inquiry (List String) := do
  record fun r ↦ { r with backtracks := r.backtracks.map (· + 1) }
  match p.core with
  | none => throw .wrongKind
  | some core =>
    let considered := (← formulas).considered.labels.countP ofClause
    record fun r ↦
      { r with
        coreSizes := r.coreSizes.map (· ++ [core.countP ofClause])
        consideredSizes := r.consideredSizes.map (· ++ [considered])
        goalBacktracks := r.goalBacktracks.map
          (· + if core.contains "neq" || core.contains "disambiguation" then 1 else 0) }
    return (← core.mapM fun l ↦ liftM (clausesOf l)).flatten

/-- The rounds of a search with the clauses that wait for their decisions and those that are still to come.
Every round uses up a reply of the solver, so `fuel` is never used up. -/
def search.rounds : Nat → Prover → List String → List (List String) → Nat → Inquiry (Option Prover)
  | 0, _, _, _, _ => throw .unanswered
  | fuel + 1, p, worklist, remaining, backtracks => do
    if worklist.isEmpty then
      note .debug ("Final under: " ++ decisionsText (← formulas).under)
      note .debug s!"#Backtracks: {backtracks}"
      return some p
    else
      countRound
      changeFormulas assertDecisions
      note .debug ("current under: " ++ decisionsText (← formulas).under)
      note .debug "1"
      let (sat, p) ← ask p
      if sat then
        record fun r ↦ { r with solved := r.solved.map (· + 1) }
        worklist.forM (decideLabel p)
        let (worklist, remaining) := nextClauses 25 remaining
        worklist.forM consider
        search.rounds fuel p worklist remaining backtracks
      else
        note .debug "2"
        note .debug "backtrack"
        let core ← countBacktrack p
        encoding (learn core)
        if ← backtrack core then search.rounds fuel p worklist remaining (backtracks + 1)
        else
          note .debug "backtrack failed"
          return none

/-- Searches for a model of all formulas, given the results of the queries. -/
def search (outputs : List Nat) : Inquiry (Option Prover) := do
  begin
  encoding findTables
  let p ← newProver
  countClauses
  let labels := (← formulas).labels
  (labels.filter (!ofClause ·)).forM consider
  let tables ← outputs.mapM fun place ↦ encoding (Workspace.table place)
  let queries ← labelsOfQueries tables (labels.filter ofClause)
  note .debug (Value.list (queries.map fun ls ↦ .list (ls.map .str))).repr
  match queries with
  | [] => throw .outOfRange
  | first :: _ =>
    let worklist := queries.filterMap List.getLast?
    worklist.forM consider
    let remaining := queries.map List.dropLast
    let fuel := (← get).solvers.replies.length + 2
    if queries.length > first.length then
      ((remaining.head?.getD []) ++ (remaining.getLast?.getD [])).forM consider
      search.rounds fuel p worklist (remaining.drop 1).dropLast 0
    else search.rounds fuel p worklist remaining 0

/-! ## Simpler ways -/

/-- Goes through the cover of the decisions of all clauses. -/
def searchCover : Inquiry (Option Prover) := do
  begin
  encoding findTables
  countClauses
  let p ← newProver
  let labels := (← formulas).labels
  changeFormulas ({ · with considered := .list labels })
  let clauses := labels.filter ofClause
  let covers ← coversOf clauses { ratio := .float 0.25 }
  let attempt (chosen : List (Int × Choices)) : Inquiry (Option Prover) := do
    countRound
    changeFormulas fun fs ↦ assertDecisions { fs with under := chosen }
    let (sat, p) ← ask p
    if sat then
      clauses.forM (decideIfAny p)
      return some p
    else return none
  attempts attempt covers []

/-- Asserts everything at once, and shows the decisions in the model. -/
def solveAtOnce : Inquiry (Option Prover) := do
  record fun r ↦
    { r with
      backtracks := some 0, goalBacktracks := some 0, coreSizes := some []
      consideredSizes := some [], solved := some 0 }
  encoding findTables
  (← formulas).labels.forM consider
  let (sat, p) ← ask { options := ["--in", "-T:300"] }
  if sat then
    ((← formulas).tableOf.getD []).forM fun (_, id) ↦ do
      let t ← encoding do Workspace.table (← Workspace.placeOf id)
      let vec ← choicesOf p t
      display s!"{id} {vec.text}"
    return some p
  else return none

end QueryEquiv.Search
