import QueryEquiv.Encode.Query

/-!
# Equality of results

Two results are equal if they hold the same rows equally often. If both are sorted, their sort keys
also have to agree row by row. Results of different width are never meant to be equal; for them the
formula says that one of the two has rows.
-/

namespace QueryEquiv.Results

open Operator Workspace

/-- A table as far as the comparison of results looks at it. -/
structure Shape where
  id : Int
  rows : Nat
  columns : List Int

namespace Shape

def ofTable (t : Table) : Outcome Shape := do return ⟨t.id, ← t.rows, t.columns.map (·.id)⟩

/-- The number of rows that are there. -/
def size (s : Shape) : Term := .sum ((List.range s.rows).map fun row ↦ .indicator (present s.id row))

/-- Two cells hold the same, where two nulls do. -/
def sameCell (a b : Int × Nat × Int) : Term :=
  let null (c : Int × Nat × Int) : Term := .null c.1 c.2.1 c.2.2
  .or [.and [null a, null b],
    .and [.not (.or [null a, null b]), .eq (.cell a.1 a.2.1 a.2.2) (.cell b.1 b.2.1 b.2.2)]]

/-- A row of a table that is there is equal to a tuple of cells. -/
def isRow (s : Shape) (tuple : List (Int × Nat × Int)) (row : Nat) : Term :=
  .and (present s.id row :: (s.columns.zip tuple).map fun (c, cell) ↦ sameCell (s.id, row, c) cell)

/-- How often a tuple of cells is a row of a table. -/
def multiplicity (s : Shape) (tuple : List (Int × Nat × Int)) : Term :=
  .sum ((List.range s.rows).map fun row ↦ .indicator (s.isRow tuple row))

def tuple (s : Shape) (row : Nat) : List (Int × Nat × Int) := s.columns.map fun c ↦ (s.id, row, c)

/-- Every row of the first table is in both equally often. -/
def sameMultiplicities (s t : Shape) : Term :=
  .and ((List.range s.rows).map fun row ↦
    .implies (present s.id row) (.eq (s.multiplicity (s.tuple row)) (t.multiplicity (s.tuple row))))

/-- One of two results has rows. -/
def someRow (s t : Shape) : Term := .or [.cmp .gt s.size .zero, .cmp .gt t.size .zero]

end Shape

/-! ## Sorted results -/

/-- The reading of a sort key of a result at a row, by position or as an expression. -/
def keyReading (place : Nat) (reader row : Nat) (key : Node) : Encoding Reading := do
  match key with
  | .literal v _ => do
    match ← v.arith .sub (.int 1) with
    | .int i => do
      let c ← cell (← table place).id row i
      return (c.val, c.isNull)
    | _ => throw .wrongKind
  | _ => Expression.numberAtRow Query.subquery place row none none reader key

/-- A sort key without the table that it names. -/
def bareKey : Node → Outcome Node
  | .column name byname => do
    if ← name.has "." then
      match (← dotted name)[1]? with
      | some n => return .attr n
      | none => .error .outOfRange
    else return .column name byname
  | n => .ok n

def sortedAgree (a b : Nat) (readerA readerB row : Nat) : List Node → Encoding (List Term)
  | [] => return []
  | .literal (.bool _) _ :: rest => sortedAgree a b readerA readerB row rest
  | key :: rest => do
    let key ← bareKey key
    let x ← keyReading a readerA row key
    let y ← keyReading b readerB row key
    let id := (← table a).id
    let here ← Reading.agree x y
    return .implies (present id row) here :: (← sortedAgree a b readerA readerB row rest)

def sortKeys (t : Table) : Encoding (List Node) :=
  match t.origin.bind (·.keys) with
  | some keys => return keys
  | none => throw .absentField

/-! ## Comparison -/

/-- The formula that two results are equal. -/
def equal (a b : Nat) : Encoding Term := do
  let t ← table a
  let u ← table b
  let s ← Shape.ofTable t
  let r ← Shape.ofTable u
  if t.columns.length == u.columns.length then
    let bags := [.eq s.size r.size, s.sameMultiplicities r]
    if t.mentionsIfAny "Sorted" && u.mentionsIfAny "Sorted" then
      let readerA ← newReader
      let readerB ← newReader
      let keys ← (List.range (min s.rows r.rows)).flatMapM fun row ↦ do
        sortedAgree a b readerA readerB row (← sortKeys t)
      return .and (bags ++ [.and keys])
    else return .and bags
  else return s.someRow r

end QueryEquiv.Results
