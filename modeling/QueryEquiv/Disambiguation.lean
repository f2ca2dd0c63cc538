import QueryEquiv.Equivalence
import QueryEquiv.Workspace.Tables

/-!
# Telling queries apart in two groups

A database disambiguates queries if their results fall into two groups of about the same size: results of
one group are equal, and results of different groups are not. Each group is represented by a table that
all its results are equal to.
-/

namespace QueryEquiv.Disambiguation

def groups : List Nat := [0, 1]

/-- The first of the greatest values. -/
def greatest : List Value → Outcome Value
  | [] => .error .badValue
  | v :: vs => vs.foldlM (fun best v ↦ do return if ← best.before v then v else best) v

/-- A table that every result fits into. -/
def representative (outputs : List Nat) : Encoding Nat := do
  let tables ← outputs.mapM Workspace.table
  let rows ← greatest (tables.map (·.bound))
  let columns ← greatest (tables.map fun t ↦ .int t.columns.length)
  Workspace.emptyTable rows columns

/-- How many of the results belong to a group. -/
def members (ids : List Int) (group : Nat) : Term := .sum (ids.map fun id ↦ .indicator (.belongs id group))

/-- A result belongs to one group, and is equal to its representative. -/
def membership (representatives : List Nat) (output : Nat) : Encoding (List Term) := do
  let id := (← Workspace.table output).id
  let equal ← (groups.zip representatives).mapM fun (g, r) ↦ do
    return Term.implies (.belongs id g) (← Results.equal output r)
  let inGroups := groups.map fun (g : Nat) ↦ Term.belongs id g
  return .or inGroups :: equal ++ [.eq (.sum (inGroups.map .indicator)) .one]

/-- The sizes of a group: half of the results, give or take a tolerance, and at least one. -/
def sizes (ids : List Int) (tolerance : Value) (group : Nat) : Outcome Term := do
  let half : Value := .float (ids.length.toFloat / 2)
  let least ← half.arith .sub tolerance
  let least := if ← least.before (.int 1) then .int 1 else least
  let most ← half.arith .add tolerance
  return .and [.ge (members ids group) (.int least), .le (members ids group) (.int most)]

/-- The condition that the results fall into two groups. -/
def condition (outputs : List Nat) (tolerance : Value) : Encoding Term := do
  let representatives ← groups.mapM fun _ ↦ representative outputs
  let memberships ← outputs.mapM (membership representatives)
  let ids ← outputs.mapM fun o ↦ do return (← Workspace.table o).id
  let sizes ← groups.mapM fun g ↦ (liftM (sizes ids tolerance g) : Encoding Term)
  let pairs := representatives.flatMap fun r ↦ (representatives.filter (· != r)).map (r, ·)
  let apart ← pairs.mapM fun (r, r') ↦ do return Term.not (← Results.equal r r')
  return .and (memberships.flatten ++ sizes ++ apart)

end QueryEquiv.Disambiguation
