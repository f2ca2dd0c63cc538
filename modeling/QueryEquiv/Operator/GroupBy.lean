import QueryEquiv.Encode.Group
import QueryEquiv.Operator.Result

/-!
# Grouping

A group is named by the first row of its kind: the rows that are there and have the same keys belong to
the group of the first of them. A second decision for each group says whether it passes the condition on
groups; groups before this decision are kept apart under the negative number of the table.
-/

namespace QueryEquiv.Operator

open Workspace

namespace GroupBy

/-! ## Formulas -/

/-- The keys of two rows agree, where two nulls do. -/
def sameKeys (a b : List Reading) : Term :=
  .and ((a.zip b).map fun (x, y) ↦
    .or [.and [x.2, y.2], .and [.not (.or [x.2, y.2]), .eq x.1 y.1]])

abbrev Keys := List (List Reading)

def keysAt (keys : Keys) (row : Nat) : List Reading := (keys[row]?).getD []

/-- A row that is there is in exactly one group, a row that is not is in none. -/
def membership (input output : Int) (groups row : Nat) : List Term :=
  let isIn (g : Nat) : Term := .grouping output row g
  [.implies (absent input row) (.and ((List.range groups).map fun g ↦ .not (isIn g))),
    .implies (present input row)
      (.eq (.sum ((List.range groups).map fun g ↦ .indicator (isIn g))) .one)]

/-- The cases for a row: kept if it is the first of its kind and so names a group, otherwise dropped. -/
def groupCases (input output : Int) (keys : Keys) (row : Nat) : List Term :=
  let same (earlier : Nat) := sameKeys (keysAt keys row) (keysAt keys earlier)
  let seen : Term := .or ((List.range row).map fun e ↦ .and [present (-output) e, same e])
  let joins : Term := .or ((List.range row).map fun e ↦
    .and [present (-output) e, same e, .grouping output row e])
  [.implies (kept output row)
      (.and [present input row, if row > 0 then .not seen else .top, .grouping output row row,
        present (-output) row]),
    .implies (dropped output row)
      (.and [.or [absent input row, .and [present input row, if row > 0 then joins else .bot]],
        absent (-output) row])]

/-- The cases for a group: kept if it passes the condition, otherwise dropped. -/
def havingCases (output : Int) (start group : Nat) (having : Reading) : List Term :=
  let passes : Term := .and [.not having.2, having.1]
  [.implies (kept output (start + group))
      (.and [present (-output) group, passes, present output group]),
    .implies (dropped output (start + group))
      (.and [.or [absent (-output) group, .and [present (-output) group, .not passes]],
        absent output group])]

def formula (input output : Int) (keys : Keys) (having : List Reading) : Term :=
  let rows := keys.length
  let members := (List.range rows).flatMap (membership input output rows)
  let groups := (List.range rows).flatMap (groupCases input output keys)
  let passing := having.zipIdx.flatMap fun (h, g) ↦ havingCases output rows g h
  .and (members ++ groups ++ passing ++ allDecided output (rows * 2))

/-! ## The result -/

/-- A key that is a number stands for the target at that position. -/
def keyOf (targets : List Node) : Node → Encoding Node
  | .literal v a =>
    match v with
    | .bool _ => return .literal v a
    | _ => do
      match ← v.arith .sub (.int 1) with
      | .int i => Table.atPosition targets i
      | _ => throw .wrongKind
  | n => return n

def readKeys (sub : Expression.Subquery) (input : Nat) (targets : List Node) (reader row : Nat) :
    List Node → Encoding (List Reading)
  | [] => return []
  | k :: ks => do
    let key ← keyOf targets k
    let r ← Expression.numberAtRow sub input row none (some targets) reader key
    return r :: (← readKeys sub input targets reader row ks)

/-- The result of a grouping. The aliases of the targets may be used in the keys and the condition. -/
def apply (sub : Expression.Subquery) (input : Nat) (label : Option String) (keys : List Node) (having : Node)
    (targets : Option (List Node)) : Encoding Nat := do
  let t ← table input
  let id ← newTableId
  let output ← makeTable
    { id, name := t.name, bound := t.bound, ancestors := [.one input]
      lineage := some s!"Grouped from T{t.id}" }
  changeTable output ({ · with origin := some { label, keys := some keys } })
  let targets ← match targets with
    | some ts => pure ts
    | none => throw .absentKey
  let reader ← newReader
  let memo ← newReader
  let rows ← t.rows
  let keyReadings ← (List.range rows).mapM fun row ↦ readKeys sub input targets reader row keys
  let havings ← (List.range rows).mapM fun (group : Nat) ↦
    if having.isMissing then pure (Reading.certain .top)
    else Expression.inGroup sub ⟨output, input, group, some targets⟩ true memo having
  append (formula t.id id keyReadings havings) label
  changeTable output ({ · with groups := .list [t.bound] })
  return output

end GroupBy

end QueryEquiv.Operator
