import QueryEquiv.Catalog
import QueryEquiv.Term

/-!
# The symbolic database

A database whose cells are unknowns. Every table has as many rows as its bound, and every cell of a
row is a pair of unknowns, its value and whether it is null. An alias of a table shares the cells of
the table.
-/

namespace QueryEquiv

/-- The unknowns at one place of a table. -/
structure Cell where
  table : Int
  row : Int
  column : Int
  deriving DecidableEq, Repr, Inhabited

namespace Cell

def val (c : Cell) : Term := .cell c.table c.row c.column

def isNull (c : Cell) : Term := .null c.table c.row c.column

def text (c : Cell) : String := s!"T{c.table}[{c.row}].{c.column}"

/-- Two cells hold the same. -/
def copies (source target : Cell) : Term :=
  .and [.eq target.isNull source.isNull, .eq target.val source.val]

end Cell

/-- The name of the unknown number of rows of a table. -/
def sizeText (table : Int) : String := s!"SIZE(T{table})"

structure Database where
  /-- The tables by number, as their places in the catalog. -/
  places : List (Int × Nat) := []
  /-- The rows of the tables; a cell that no column stands for is missing. -/
  rows : List (Int × Array (Array (Option Cell))) := []
  /-- The tables whose number of rows is unknown. -/
  sized : List Int := []
  deriving Inhabited

namespace Database

/-- Puts a value under a key, in the place of the old value if there is one. -/
def put {α : Type} (key : Int) (a : α) : List (Int × α) → List (Int × α)
  | [] => [(key, a)]
  | (k, b) :: rest => if k == key then (k, a) :: rest else (k, b) :: put key a rest

def place? (db : Database) (table : Int) : Option Nat := db.places.lookup table

/-- The rows of a table, none if it has none yet. -/
def rowsOf (db : Database) (table : Int) : Array (Array (Option Cell)) := (db.rows.lookup table).getD #[]

/-- The database in which the rows of a table are at least an empty list. -/
def touch (db : Database) (table : Int) : Database :=
  if (db.rows.lookup table).isSome then db else { db with rows := db.rows ++ [(table, #[])] }

def setAt (row : Array (Option Cell)) (i : Int) (c : Cell) : Outcome (Array (Option Cell)) :=
  let j := if i < 0 then i + row.size else i
  if 0 ≤ j && j < row.size then .ok (row.set! j.toNat (some c)) else .error .outOfRange

def freshRow (t : Table) (row : Nat) : Outcome (Array (Option Cell)) :=
  t.columns.foldlM (fun cells c ↦ setAt cells c.id ⟨t.id, row, c.id⟩)
    (Array.replicate t.columns.length none)

def addRows (t : Table) : Nat → Nat → Database → Outcome Unit × Database
  | 0, _, db => (.ok (), db)
  | n + 1, row, db =>
    match freshRow t row with
    | .error f => (.error f, db)
    | .ok cells =>
      let db := if t.columns.isEmpty then db
        else { db with rows := put t.id ((db.rowsOf t.id).push cells) db.rows }
      addRows t n (row + 1) db

/-- Adds a table: rows of unknowns, as many as its bound, and its place. Rows of a table with the same
number stay before the new ones. -/
def addTable (db : Database) (place : Nat) (t : Table) : Outcome Unit × Database :=
  let db := { db with sized := if db.sized.contains t.id then db.sized else db.sized ++ [t.id] }
  match t.rows with
  | .error f => (.error f, db)
  | .ok n =>
    match addRows t n 0 db with
    | (.error f, db) => (.error f, db)
    | (.ok (), db) => (.ok (), { db with places := put t.id place db.places })

def ofPlaces (c : Catalog) (places : List Nat) : Outcome Database :=
  places.foldlM (fun db p ↦
    match db.addTable p (c.table p) with
    | (.ok (), db) => .ok db
    | (.error f, _) => .error f) {}

/-- A cell by table, row and column, counted from the end if negative. -/
def cell (db : Database) (table row column : Int) : Outcome (Option Cell) :=
  match Table.atPosition (db.rowsOf table).toList row with
  | .ok cells =>
    match Table.atPosition cells.toList column with
    | .ok c => .ok c
    | .error f => if (db.place? table).isSome then .error f else .error .absentKey
  | .error f => if (db.place? table).isSome then .error f else .error .absentKey

/-- The tables with their rows. -/
def text (db : Database) (c : Catalog) : Outcome String := do
  let parts ← db.rows.mapM fun (id, rows) ↦ do
    let t ← match db.place? id with
      | some p => pure (c.table p)
      | none => .error .absentKey
    let lineage := t.lineage.getD "None"
    let cellText : Option Cell → String
      | some c => c.text
      | none => "None"
    let lines := rows.toList.map fun row ↦ ", ".intercalate (row.toList.map cellText) ++ "\n"
    return s!"T{id} ({t.name.text}): {lineage}\n" ++ String.join lines
  return String.join parts

end Database

end QueryEquiv
