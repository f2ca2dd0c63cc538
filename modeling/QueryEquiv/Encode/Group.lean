import QueryEquiv.Encode.Row

/-!
# Expressions in groups

How an expression is read in a group of rows. A column stands for its value in the first row of the
group; an aggregate ranges over the rows of the table, weighing which of them lie in the group.
-/

namespace QueryEquiv.Expression

open Workspace

structure GroupOfRows where
  /-- The table whose rows are the groups. -/
  groups : Nat
  /-- The table whose rows are grouped. -/
  members : Nat
  group : Int
  /-- The targets of the query, whose aliases may be used. -/
  targets : Option (List Node)

namespace GroupOfRows

def contains (g : GroupOfRows) (row : Nat) : Encoding Term := do
  return .grouping (← table g.groups).id row g.group

/-! ## Aggregates -/

/-- An argument that is every column. -/
def isStar : Node → Bool
  | .column name _ => name.same (.str "*")
  | _ => false

def contributions (sub : Subquery) (g : GroupOfRows) (reader : Nat) (args : List Argument) :
    List Nat → Encoding (List Contribution)
  | [] => return []
  | row :: rows => do
    let a ← argument args 1
    let (val, null) ← numberAtRow sub g.members row none none reader a.node
    let flag ← g.contains row
    return { val, null, flag } :: (← contributions sub g reader args rows)

def asksDistinct (args : List Argument) : Encoding Bool := do
  return (← argument args 0).node.truthy

/-- Whether a count is of rows, whatever they hold. -/
def countsRows (args : List Argument) : Encoding Bool := do
  if ← asksDistinct args then return false else return isStar (← argument args 1).node

def either (args : List Argument) (distinct plain : List Contribution → Outcome Reading)
    (rows : List Contribution) : Encoding Reading := do
  if ← asksDistinct args then distinct rows else plain rows

def aggregate (sub : Subquery) (g : GroupOfRows) (op : String) (args : List Argument) :
    Encoding Reading := do
  let rowsOnly ← if op == "count" then countsRows args else pure false
  if rowsOnly then
    let rows := List.range (← (← table g.members).rows)
    return Reading.certain (.sum ((← rows.mapM g.contains).map .indicator))
  else
    let reader ← newReader
    let rows ← contributions sub g reader args (List.range (← (← table g.members).rows))
    match op with
    | "max" => Aggregate.groupMaximum rows
    | "min" => Aggregate.groupMinimum rows
    | "count" => either args Aggregate.groupCountDistinct Aggregate.groupCount rows
    | "sum" => either args Aggregate.groupSumDistinct Aggregate.groupSum rows
    | _ => either args Aggregate.groupAverageDistinct Aggregate.groupAverage rows

/-! ## Functions and columns -/

def groupFunction (sub : Subquery) (g : GroupOfRows) (op : String) (args : List Argument)
    (whole : Node) : Encoding Reading := do
  if Node.aggregateNames.contains op then aggregate sub g op args
  else
    match op with
    | "ifnull" => do
      let (val, null) ← readingAt args 0
      let (other, otherNull) ← readingAt args 1
      return (.ite (.not null) val other, otherNull)
    | "is_null" => do
      let (_, null) ← readingAt args 0
      return Reading.certain null
    | "is_not_null" => do
      let (_, null) ← readingAt args 0
      return Reading.certain (.not null)
    | _ =>
      match shared op args with
      | some a => a
      | none => throw (.unsupported (some (← reprOf whole)))

/-- The first of two rows that lies in the group, from the left. -/
def firstIn (x y : Contribution) : Contribution :=
  let turns : Term := .and [y.flag, .not x.flag]
  { val := .ite turns y.val x.val
    null := .ite turns y.null x.null
    flag := .or [x.flag, y.flag] }

def columnCells (g : GroupOfRows) (name : Value) : List Nat → Encoding (List Contribution)
  | [] => return []
  | row :: rows => do
    let flag ← g.contains row
    let c ← column g.members name
    let cell ← cell (← table g.members).id row c.id
    return { val := cell.val, null := cell.isNull, flag } :: (← columnCells g name rows)

/-- The target that a name which is no column of the table stands for. -/
def aliased? (g : GroupOfRows) (name : Value) : Encoding (Option Node) := do
  let known ← tryCatch (do let _ ← column g.members name; return true) fun
    | .unresolved _ => return false
    | f => throw f
  if known then return none
  else
    match g.targets with
    | none => throw .absentField
    | some ts => targetNamed name ts

def reader (sub : Subquery) (g : GroupOfRows) (memo : Nat) : Nat → Reader
  | 0 =>
    { column := fun _ ↦ throw .tooDeep
      constant := fun _ ↦ throw .tooDeep
      scalar := fun _ ↦ throw .tooDeep
      function := fun _ _ _ ↦ throw .tooDeep }
  | depth + 1 =>
    { column := fun name ↦ do
        let rows := List.range (← (← table g.members).rows)
        let target ← if rows.isEmpty then pure none else aliased? g name
        match target with
        | some t => encode (reader sub g memo depth) t
        | none =>
          match ← columnCells g name rows with
          | [] => throw .wrongKind
          | c :: cs =>
            let c := cs.foldl firstIn c
            return (c.val, c.null)
      constant := constant false
      scalar := fun n ↦ do
        let t ← table (← subqueryTable sub memo n)
        return Reading.firstCell t.id
      function := groupFunction sub g }

end GroupOfRows

/-- The reading of an expression in a group, as a truth value or as a number. -/
def inGroup (sub : Subquery) (g : GroupOfRows) (truth : Bool) (memo : Nat) (n : Node) :
    Encoding Reading := do
  let a ← encode (g.reader sub memo aliasDepth) n
  if truth then asTruth a else asNumber a

end QueryEquiv.Expression
