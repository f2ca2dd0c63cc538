import QueryEquiv.Operator.Result

/-!
# Filters

A filter keeps the rows of a table for which a predicate is true, each in its place.
-/

namespace QueryEquiv.Operator

open Workspace

/-- What a filter knows of a row: the reading of the predicate, and what says that the row of the
result is a copy of it. -/
structure FilteredRow where
  predicate : Reading
  copies : List Term

namespace Filter

/-- The cases of a filter for a row: kept if it is there and the predicate is true, otherwise dropped. -/
def rowCases (input output : Int) (row : Nat) (r : FilteredRow) : List Term :=
  let (val, null) := r.predicate
  [.implies (kept output row)
      (.and [present input row, .and [.not null, val], .and r.copies, present output row]),
    .implies (dropped output row)
      (.and [.or [absent input row, .and [present input row, unmet val null]], absent output row])]

def cases (input output : Int) (rows : List FilteredRow) : List Term :=
  rows.zipIdx.flatMap fun (r, i) ↦ rowCases input output i r

/-- The rows that a filter goes through. -/
def readRows (sub : Expression.Subquery) (input : Nat) (output : Int) (predicate : Node)
    (outer : Option Int) (reader : Nat) : List Nat → Encoding (List FilteredRow)
  | [] => return []
  | row :: rows => do
    let predicateReading ← Expression.truthAtRow sub input row outer reader predicate
    let t ← table input
    let copies ← copyRow t.id output row row (t.columns.map (·.id))
    return ⟨predicateReading, copies⟩ :: (← readRows sub input output predicate outer reader rows)

/-- The result of a filter. -/
def apply (sub : Expression.Subquery) (input : Nat) (label : Option String) (predicate : Node) (k : Value)
    (outer : Option Int) : Encoding Nat := do
  let t ← table input
  let id ← newTableId
  let text ← textOf predicate
  let output ← makeTable
    { id, name := t.name, columns := t.columns, bound := t.bound, ancestors := [.one input]
      lineage := some s!"Filtered from T{t.id} ({text})" }
  changeTable output ({ · with origin := some { label } })
  let cut ← cutDown output k
  let reader ← newReader
  let rows ← t.rows
  let filtered ← readRows sub input id predicate outer reader (List.range rows)
  settle output cut k label (.choice id ·) (kept id) (cases t.id id filtered) (allDecided id rows)

end Filter

end QueryEquiv.Operator
