import QueryEquiv.Codes
import QueryEquiv.Database
import QueryEquiv.Formulas
import QueryEquiv.Log

/-!
# The workspace of an encoding

Everything that encoding queries reads and extends: the schema and its constraints, the tables made
so far with their unknowns, the formulas, the codes of texts, and what is known about the clauses of
the queries. A step that fails leaves behind what it did before it failed.
-/

namespace QueryEquiv

/-- What is known of a clause, found by its tag. -/
structure ClauseState where
  label : Option String := none
  distinct : Option String := none
  grouping : Option String := none
  /-- Whether labels were given to the query. -/
  prepared : Bool := false

/-- The limits of the joins that go through all matchings: the number of rows and of matchings. -/
structure MatchingLimits where
  rows : Option Value := none
  matchings : Option Value := none

structure Workspace where
  schema : Value := .list []
  constraints : List Value := []
  /-- The bound of the tables of the schema. -/
  bound : Value := .int 2
  timeBudget : Value := .int 60
  /-- The numbers of rows that results are cut down to, by kind of clause. -/
  sizes : Value := .null
  catalog : Catalog := {}
  database : Database := {}
  lastTable : Int := -1
  formulas : Formulas := {}
  /-- How many further conditions the constraints of the schema gave. -/
  extra : List Term := []
  codes : Codes := {}
  currentQuery : Value := .null
  /-- The cases that pattern matching is narrowed down to. -/
  approximations : List Term := []
  /-- Whether encoding is over, so that unions get no labels any more. -/
  settled : Bool := false
  clauses : List (Nat × ClauseState) := []
  /-- The joins whose missing condition was replaced by truth. -/
  completed : List Nat := []
  nextTag : Nat := 1
  /-- The tables of subqueries, by reader and by text. -/
  subqueries : List ((Nat × String) × Nat) := []
  nextReader : Nat := 0
  rightLimits : MatchingLimits := {}
  fullLimits : MatchingLimits := {}
  messages : List Message := []

abbrev Encoding := ExceptT Fault (StateM Workspace)

namespace Workspace

/-! ## Messages -/

def note (level : Level) (text : String) : Encoding Unit :=
  modify fun w ↦ { w with messages := w.messages ++ [⟨level, text⟩] }

/-! ## Tables -/

/-- The number of the next table. -/
def newTableId : Encoding Int := do
  modify fun w ↦ { w with lastTable := w.lastTable + 1 }
  return (← get).lastTable

def table (place : Nat) : Encoding Table := do return (← get).catalog.table place

def enter (t : Table) : Encoding Nat := do
  let w ← get
  let (place, catalog) := w.catalog.add t
  set { w with catalog }
  return place

def changeTable (place : Nat) (f : Table → Table) : Encoding Unit :=
  modify fun w ↦ { w with catalog := w.catalog.modify place f }

def copyTable (place : Nat) : Encoding Nat := do
  let w ← get
  let (copy, catalog) := w.catalog.copy place
  set { w with catalog }
  return copy

def retitle (place : Nat) (name : Value) : Encoding Unit :=
  modify fun w ↦ { w with catalog := w.catalog.retitle place name }

def addTable (place : Nat) : Encoding Unit := do
  let w ← get
  let (result, database) := w.database.addTable place (w.catalog.table place)
  set { w with database }
  match result with
  | .ok () => return
  | .error f => throw f

/-- Enters a table and adds it to the database. -/
def makeTable (t : Table) : Encoding Nat := do
  let place ← enter t
  addTable place
  return place

/-- The column of a table of the catalog at a position or of a name. -/
def column (place : Nat) (item : Value) : Encoding Column := do
  let (c, catalog) ← (← get).catalog.lookup place item
  modify fun w ↦ { w with catalog }
  return c

/-- The unknowns at a place of the database. -/
def cell? (table row column : Int) : Encoding (Option Cell) := do
  modify fun w ↦ { w with database := w.database.touch table }
  (← get).database.cell table row column

/-- The unknowns at a place of the database, where there have to be some. -/
def cell (table row column : Int) : Encoding Cell := do
  match ← cell? table row column with
  | some c => return c
  | none => throw .absentField

/-- The table with a number. -/
def placeOf (id : Int) : Encoding Nat := do
  match (← get).database.place? id with
  | some p => return p
  | none => throw .absentKey

def findNamed (w : Workspace) (name : String) : List (Int × Nat) → Outcome Nat
  | [] => .error (.unresolved s!"Table '{name}' does not exist")
  | (_, place) :: rest => do
    let t := w.catalog.table place
    if (← lowered t.name) == name && (t.scope.same .null || t.scope.same w.currentQuery) then
      return place
    else findNamed w name rest

/-- The first table of a name that the current query can see. -/
def findTable (name : Value) : Encoding Nat := do
  let w ← get
  let name ← lowered name
  findNamed w name w.database.places

/-! ## Formulas -/

def append (t : Term) (label : Option String) : Encoding Unit :=
  modify fun w ↦ { w with formulas := w.formulas.append t label }

def changeFormulas (f : Formulas → Formulas) : Encoding Unit :=
  modify fun w ↦ { w with formulas := f w.formulas }

/-! ## Texts -/

def code (v : Value) : Encoding Int := do
  let w ← get
  let (n, codes) := w.codes.encode v.text
  set { w with codes }
  return n

/-! ## Clauses -/

def clause (tag : Nat) : Encoding ClauseState := do
  return ((← get).clauses.lookup tag).getD {}

def changeClause (tag : Nat) (f : ClauseState → ClauseState) : Encoding Unit :=
  modify fun w ↦
    { w with clauses := Formulas.put tag (f ((w.clauses.lookup tag).getD {})) w.clauses }

def newReader : Encoding Nat := do
  let w ← get
  set { w with nextReader := w.nextReader + 1 }
  return w.nextReader

end Workspace

end QueryEquiv
