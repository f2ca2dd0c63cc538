import QueryEquiv.Operator.Result

/-!
# Duplicate elimination

Of rows that are equal only the first is kept. Two nulls are equal.
-/

namespace QueryEquiv.Operator

open Workspace

namespace Distinct

/-- Two rows of a table are equal in the first columns. -/
def sameRow (input : Int) (width i j : Nat) : Term :=
  .and ((List.range width).map fun (c : Nat) ↦
    let null (row : Nat) : Term := .null input row c
    .or [.and [null i, null j],
      .and [.not (.or [null i, null j]), .eq (.cell input i c) (.cell input j c)]])

/-- A row equals one of the earlier rows that were kept. -/
def repeats (input output : Int) (width row : Nat) : Term :=
  .or ((List.range row).map fun earlier ↦
    .and [present output earlier, sameRow input width row earlier])

/-- The cases for a row: kept if it is there and the first of its kind, otherwise dropped. -/
def rowCases (input output : Int) (width row : Nat) (copies : List Term) : List Term :=
  let first : Term := if row > 0 then .not (repeats input output width row) else .top
  let duplicate : Term := if row > 0 then repeats input output width row else .bot
  [.implies (kept output row)
      (.and [present input row, first, .and copies, present output row]),
    .implies (dropped output row)
      (.and [.or [absent input row, .and [present input row, duplicate]], absent output row])]

def formula (input output : Int) (width : Nat) (copies : List (List Term)) : Term :=
  .and (copies.zipIdx.flatMap (fun (cs, i) ↦ rowCases input output width i cs) ++
    allDecided output copies.length)

/-- The result of a duplicate elimination. -/
def apply (input : Nat) (origin : Origin) : Encoding Nat := do
  let t ← table input
  let id ← newTableId
  let output ← makeTable
    { id, name := t.name, columns := t.columns, bound := t.bound, ancestors := [.one input]
      lineage := some s!"Duplicate eliminated from T{t.id}" }
  changeTable output ({ · with origin := some origin })
  let rows ← t.rows
  let copies ← (List.range rows).mapM fun row ↦ copyRow t.id id row row (t.columns.map (·.id))
  match origin.distinct with
  | some label => append (formula t.id id t.columns.length copies) label
  | none => throw .absentField
  return output

end Distinct

end QueryEquiv.Operator
