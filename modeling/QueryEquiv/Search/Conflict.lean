import QueryEquiv.Search.Script

/-!
# Decisions and conflicts

The decisions that are currently fixed are asserted as one formula. When they turn out to contradict
some clauses, the decisions of these clauses are excluded together from then on.
-/

namespace QueryEquiv.Search

def decisionsText (under : List (Int × Choices)) : String :=
  "\x7b" ++ ", ".intercalate (under.map fun (t, vec) ↦ toString t ++ ": " ++ vec.text) ++ "\x7d"

def labelListText (labels : List String) : String := (Value.list (labels.map .str)).repr

/-- The label of the formula for the current decisions. -/
def decisionLabel : String := "under"

def assertDecisions (fs : Formulas) : Formulas :=
  if fs.under.isEmpty then fs.erase decisionLabel
  else fs.set decisionLabel (.and (fs.under.flatMap fun (t, vec) ↦ vec.conditions t))

def tableOfLabel (label : String) : Encoding (Option Nat) := do
  match (← get).formulas.tableOf with
  | none => throw .wrongKind
  | some tables =>
    match tables.lookup (some label) with
    | none => return none
    | some id => return some (← Workspace.placeOf id)

/-- The current decisions of the clauses with the given labels. -/
def decisionsOf : List String → List (Int × Choices) → Encoding (List (Int × Choices))
  | [], found => return found
  | label :: rest, found => do
    match ← tableOfLabel label with
    | none => decisionsOf rest found
    | some place =>
      let t ← Workspace.table place
      match (← get).formulas.under.lookup t.id with
      | none => decisionsOf rest found
      | some vec => decisionsOf rest (Formulas.put t.id vec found)

/-- Excludes the decisions together. -/
def exclusion (conflict : List (Int × Choices)) : Term :=
  .not (.and (conflict.map fun (t, vec) ↦ .and (vec.conditions t)))

/-- The name of a conflict tells the clauses that it is between. -/
def conflictName (n : Nat) (core : List String) : String :=
  let clauses := core.filter fun l ↦ ofClause l && !Text.occursIn "conflict" l
  s!"conflict{n}_" ++ "&".intercalate clauses

def addConflict (conflict : List (Int × Choices)) (core : List String) (fs : Formulas) : Formulas :=
  if conflict.isEmpty then fs
  else
    let n := fs.conflictCount + 1
    { fs with
      conflictCount := n
      conflicts := Formulas.put (conflictName n core) (exclusion conflict) fs.conflicts }

/-- Learns that the current decisions of the contradicting clauses exclude each other. -/
def learn (core : List String) : Encoding Unit := do
  let conflict ← decisionsOf core []
  Workspace.changeFormulas (addConflict conflict core)
  Workspace.note .debug s!"new conflict learned: {decisionsText conflict}, {labelListText core}"

end QueryEquiv.Search
