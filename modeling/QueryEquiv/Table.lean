import QueryEquiv.Ast.Basic
import QueryEquiv.Text.Case
import QueryEquiv.Value.Access

/-!
# Tables

The shape of a table: its columns and how many rows it may have. Beside the tables of the schema
there is one for the result of every step of a query, so a table also tells how it came about: the
tables that it was made from, a text that names the step, and the labels of the clause that asked
for it.

Names are values, since an alias may be anything; a name that is asked to match a text has to be one.
-/

namespace QueryEquiv

/-- Texts are compared without regard to case; only a text has a lower case. -/
def lowered : Value → Outcome String
  | .str s => .ok (Text.lower s)
  | _ => .error .absentField

/-- The pieces of a text between full stops. -/
def dotted : Value → Outcome (List String)
  | .str s =>
    let (cuts, last) := (Text.Pattern.char '.').cut s.toList
    .ok (cuts.map (fun (before, _) ↦ String.ofList before) ++ [String.ofList last])
  | _ => .error .absentField

structure Column where
  id : Int
  name : Value
  type : Value
  table : Value := .null
  /-- What the column was called before it got its alias. -/
  former : Value := .null
  /-- The table that the column was made for. -/
  home : List String := []
  deriving Inhabited

namespace Column

/-- A column of a table; the name of the table has to be a text. -/
def make (id : Int) (name type table former : Value) : Outcome Column := do
  let home ← match table with
    | .null => pure []
    | t => do pure [← lowered t]
  return { id, name, type, table, former, home }

def computed (id : Int) (name former : Value) : Column := { id, name, type := .str "int", former }

def same (c d : Column) : Bool := c.name.same d.name && c.type.same d.type && c.table.same d.table

def text (c : Column) : String :=
  s!"c{c.id}({c.table.text}.{c.name.text}):{c.type.text}"

def answersTo (c : Column) (table : Option String) (name : String) : Outcome Bool := do
  let tableFits ← match table, c.table with
    | none, _ => pure true
    | _, .null => pure true
    | some t, own => do pure ((← lowered own) == Text.lower t)
  if tableFits then return (← lowered c.name) == Text.lower name else return false

end Column

/-- The labels of the clause that a table is the result of. A clause that has no place for a label is
`none` there. -/
structure Origin where
  label : Option String := none
  distinct : Option (Option String) := none
  grouping : Option (Option String) := none
  /-- What the clause sorts or groups by. -/
  keys : Option (List Node) := none
  deriving Inhabited

/-- One table, or several of equal standing, among the tables another was made from. Tables are
referred to by their place in the catalog. -/
inductive Ancestor where
  | one (place : Nat)
  | several (places : List Nat)
  deriving Inhabited, DecidableEq

structure Table where
  id : Int
  name : Value
  columns : List Column := []
  /-- The largest number of rows. -/
  bound : Value
  ancestors : List Ancestor := []
  lineage : Option String := none
  origin : Option Origin := none
  /-- The query that the table belongs to, if it is visible only there. -/
  scope : Value := .null
  /-- The numbers of groups that are considered. -/
  groups : Value := .null
  deriving Inhabited

namespace Table

def text (t : Table) : String :=
  s!"T{t.id}({t.name.text}):[{columnTexts t}], size={t.bound.text}"
where
  columnTexts (t : Table) : String := ",".intercalate (t.columns.map Column.text)

/-- The number of rows to go through; a bound that is no number has none. -/
def rows (t : Table) : Outcome Nat :=
  match t.bound with
  | .int n => .ok n.toNat
  | .bool b => .ok (if b then 1 else 0)
  | _ => .error .wrongKind

/-- Whether the lineage mentions a text; a table without lineage cannot be asked. -/
def mentions (t : Table) (s : String) : Outcome Bool :=
  match t.lineage with
  | some l => .ok (Text.occursIn s l)
  | none => .error .wrongKind

def mentionsIfAny (t : Table) (s : String) : Bool := t.lineage.any (Text.occursIn s)

/-- The member of a list at a position, counted from the end if it is negative. -/
def atPosition {α : Type} (xs : List α) (i : Int) : Outcome α :=
  let j := if i < 0 then i + xs.length else i
  if j < 0 then .error .outOfRange
  else
    match xs[j.toNat]? with
    | some x => .ok x
    | none => .error .outOfRange

def search (t : Table) (item : String) (table : Option String) (name : String) :
    List Column → Outcome Column
  | [] => .error (.unresolved s!"Attribute '{item}' does not exist in T{t.id} ({t.name.text})\n{t.text}")
  | c :: cs => do
    if ← c.answersTo table name then return c
    match c.former with
    | .null => search t item table name cs
    | former => do
      if (← lowered former) == item then return c else search t item table name cs

/-- The column at a position or of a name. A name has a table if it has a full stop; a column also
answers to what it was called before it got its alias. -/
def column (t : Table) (item : Value) : Outcome Column :=
  match item with
  | .int i => atPosition t.columns i
  | .bool b => atPosition t.columns (if b then 1 else 0)
  | _ => do
    let item ← lowered item
    match ← dotted (.str item) with
    | table :: name :: _ => search t item (some table) name t.columns
    | _ => search t item none item t.columns

def withColumn (t : Table) (position : Value) (c : Column) : Outcome Table := do
  let i ← match position with
    | .int i => .ok i
    | .bool b => .ok (if b then 1 else 0)
    | _ => .error .wrongKind
  let _ ← atPosition t.columns i
  let j := if i < 0 then i + t.columns.length else i
  return { t with columns := t.columns.set j.toNat c }

/-- The table under another name, which its columns take over. -/
def retitled (t : Table) (name : Value) : Table :=
  { t with name, columns := t.columns.map fun c ↦ { c with table := name } }

end Table

end QueryEquiv
