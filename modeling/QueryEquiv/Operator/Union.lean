import QueryEquiv.Operator.Distinct

/-!
# Unions

The rows of several tables one after the other, as wide as the first of them.
-/

namespace QueryEquiv.Operator

open Workspace

namespace Union

/-- A row of a table that a union takes over, and what says that it was copied. -/
structure Source where
  table : Int
  row : Nat
  copies : List Term

/-- The cases for a row of the result: kept if it is there, otherwise dropped. -/
def rowCases (output : Int) (row : Nat) (s : Source) : List Term :=
  [.implies (kept output row) (.and [present s.table s.row, .and s.copies, present output row]),
    .implies (dropped output row) (.and [absent s.table s.row, absent output row])]

def formula (output : Int) (sources : List Source) : Term :=
  .and (sources.zipIdx.flatMap (fun (s, i) ↦ rowCases output i s) ++ allDecided output sources.length)

/-- The rows of a table that go into the result from a position on. -/
def takeOver (output : Int) (input : Nat) (start : Nat) : Encoding (List Source) := do
  let t ← table input
  let rows ← t.rows
  (List.range rows).mapM fun (row : Nat) ↦ do
    let copies ← t.columns.mapM fun c ↦ copyOf (t.id, row, c.id) (output, start + row, c.id)
    return ⟨t.id, row, copies⟩

def takeOverAll (output : Int) : Nat → List Nat → Encoding (List Source)
  | _, [] => return []
  | start, input :: inputs => do
    let sources ← takeOver output input start
    return sources ++ (← takeOverAll output (start + sources.length) inputs)

/-- A name that is not a text cannot be part of a name. -/
def joinedName (names : List Value) : Outcome String := do
  let texts ← names.mapM fun
    | .str s => .ok s
    | _ => .error .wrongKind
  return "!" ++ "_UNION_".intercalate texts ++ "!"

/-- The result of a union; duplicates are eliminated unless they are kept. -/
def apply (inputs : List Nat) (origin : Origin) (keepsDuplicates : Bool) : Encoding Nat := do
  let id ← newTableId
  let tables ← inputs.mapM table
  let name ← joinedName (tables.map (·.name))
  let bound ← tables.foldlM (fun (n : Value) t ↦ n.arith .add t.bound) (.int 0)
  let first ← match tables with
    | t :: _ => pure t
    | [] => throw .outOfRange
  let ids := ", ".intercalate (tables.map fun t ↦ toString t.id)
  let output ← makeTable
    { id, name := .str name, columns := first.columns, bound, ancestors := [.several inputs]
      lineage := some s!"Union of T{ids}" }
  changeTable output ({ · with origin := some origin })
  append (formula id (← takeOverAll id 0 inputs)) origin.label
  if keepsDuplicates then return output else Distinct.apply output origin

end Union

end QueryEquiv.Operator
