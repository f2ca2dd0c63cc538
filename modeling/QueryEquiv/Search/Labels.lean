import QueryEquiv.Text.Quoted
import QueryEquiv.Workspace

/-!
# The tables behind labels

Each label of a clause is about one table, whose choices are the decisions of that clause. A table
that was cut down stands for the full table. A projection of groups is about the same table as its
grouping.
-/

namespace QueryEquiv.Search

def labelsOf (t : Table) : Outcome (List (Option String)) :=
  match t.lineage with
  | none => .ok []
  | some lineage =>
    let needed : Outcome Origin := match t.origin with
      | some o => .ok o
      | none => .error .broken
    let place : Option (Option String) → Outcome (Option String)
      | some l => .ok l
      | none => .error .absentField
    if Text.occursIn "Duplicate" lineage then do
      return [← place (← needed).distinct]
    else if Text.occursIn "Group" lineage then do
      let o ← needed
      return [o.label, ← place o.grouping]
    else return match t.origin with
      | some o => [o.label]
      | none => []

def collect (w : Workspace) : List (Int × Nat) → List (Option String × Int) →
    Outcome (List (Option String × Int))
  | [], found => .ok found
  | (_, place) :: rest, found => do
    let t := w.catalog.table place
    let id := (w.formulas.fullTable.lookup t.id).getD t.id
    let found := (← labelsOf t).foldl (fun fs l ↦ Formulas.put l id fs) found
    collect w rest found

def tablesOfLabels (w : Workspace) : Outcome (List (Option String × Int)) := collect w w.database.places []

def labelsText (found : List (Option String × Int)) : String :=
  let entry : Option String × Int → String := fun (label, id) ↦
    s!"{(label.map Text.quoted).getD noLabel}: {id}"
  "\x7b" ++ ", ".intercalate (found.map entry) ++ "\x7d"
where
  noLabel := "None"

def findTables : Encoding Unit := do
  let found ← tablesOfLabels (← get)
  Workspace.changeFormulas ({ · with tableOf := some found })
  Workspace.note .debug (labelsText found)

end QueryEquiv.Search
