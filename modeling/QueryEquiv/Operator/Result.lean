import QueryEquiv.Encode.Row
import QueryEquiv.Operator.Decision

/-!
# Result tables of operators

What the operators have in common in making their result: the table itself, the smaller table that it
is cut down to, and the formulas that say that cells are copies.
-/

namespace QueryEquiv.Operator

open Workspace

/-- A cell is a copy of another. -/
def copyOf (source target : Int × Int × Int) : Encoding Term := do
  let s ← cell? source.1 source.2.1 source.2.2
  let t ← cell? target.1 target.2.1 target.2.2
  match s, t with
  | some s, some t => return s.copies t
  | _, _ => throw .absentField

def copyRow (source target : Int) (i j : Nat) (columns : List Int) : Encoding (List Term) :=
  columns.mapM fun c ↦ copyOf (source, i, c) (target, j, c)

/-- A result that has more rows than are wanted gets a smaller table, which then is the result. -/
def cutDown (output : Nat) (k : Value) : Encoding (Option Nat) := do
  let t ← table output
  if ← k.compare .lt t.bound then
    let cut ← copyTable output
    let id ← newTableId
    changeTable cut fun t ↦ { t with id, bound := k }
    addTable cut
    changeFormulas fun fs ↦ { fs with fullTable := Formulas.put id t.id fs.fullTable }
    return some cut
  else return none

def compactionCopies (full cut : Table) (rows slots : Nat) : Encoding (List (List (List Term))) :=
  (List.range slots).mapM fun slot ↦ (List.range rows).mapM fun row ↦
    copyRow full.id cut.id row slot ((List.range full.columns.length).map Int.ofNat)

/-- Adds the formula of an operator: its cases, how the result is cut down, and what else it asks for.
The result is the smaller table if there is one. -/
def settle (output : Nat) (cut : Option Nat) (k : Value) (label : Option String)
    (weight counts : Nat → Term) (cases others : List Term) : Encoding Nat := do
  match cut with
  | none =>
    append (.and (cases ++ others)) label
    return output
  | some cut =>
    let full ← table output
    let small ← table cut
    let rows ← full.rows
    let slots ← small.rows
    let c : Compaction :=
      { full := full.id, cut := small.id, rows, slots, weight, counts, copies := fun _ _ ↦ [] }
    append (c.fits k) (some s!"size_{full.id}")
    let copies ← compactionCopies full small rows slots
    let c := { c with copies := fun slot row ↦ ((copies[slot]?.getD [])[row]?).getD [] }
    append (.and (cases ++ c.cases ++ others)) label
    return cut

end QueryEquiv.Operator
