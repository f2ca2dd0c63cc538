import QueryEquiv.Encode.Expression

/-!
# Expressions at rows

How an expression is read at a row of a table, or at a pair of rows of two tables that are joined.
-/

namespace QueryEquiv.Expression

open Workspace

/-! ## Functions -/

/-- The left side of a membership test in a table: one expression, or a tuple as wide as the table. -/
def tupleReadings (width : Nat) (a : Argument) : Encoding (List Reading) := do
  let wide (n : Nat) (parts : List (Encoding Reading)) : Encoding (List Reading) :=
    if width == n then inTurn parts else throw .broken
  match a.node, a.members with
  | _, some parts => wide parts.length parts
  | .raw (.str s), _ => wide s.length (s.toList.map fun _ ↦ throw .absentField)
  | .raw (.object es), _ => wide es.length (es.map fun _ ↦ throw .absentField)
  | n, _ => if n.isColumn || n.isExpression then wide 1 [a.reading] else throw .wrongKind

/-- A membership test: among values, or in the result of a subquery. -/
def membership (members : Node → Encoding Nat) (negated : Bool) (args : List Argument) :
    Encoding Reading := do
  let right ← argument args 1
  let left ← argument args 0
  match right.members with
  | some parts => do
    let l ← left.reading
    let rs ← inTurn parts
    if negated then Reading.notAmong l rs else Reading.among l rs
  | none => do
    let t ← table (← members right.node)
    let ls ← tupleReadings t.columns.length left
    let rows ← t.rows
    if negated then Reading.notInTable t.id rows ls else Reading.inTable t.id rows ls

/-- Whether an expression is null, or a subquery has no row. -/
def nullness (members : Node → Encoding Nat) (negated : Bool) (args : List Argument) :
    Encoding Reading := do
  let a ← argument args 0
  if a.node.isQuery then
    let t ← table (← members a.node)
    let rows ← t.rows
    return if negated then Reading.someRow t.id rows else Reading.noRow t.id rows
  else
    let (_, null) ← a.reading
    return Reading.certain (if negated then .not null else null)

/-- A power of two literals, which is a plain number. -/
def power (args : List Argument) : Encoding Reading := do
  match (← argument args 0).node with
  | .literal a _ =>
    match (← argument args 1).node with
    | .literal b _ => return Reading.certain (.plain (← a.pow b))
    | _ => throw (.unsupported none)
  | _ => throw (.unsupported none)

/-- Functions at a row. Aggregates have no value at a single row. -/
def rowFunction (members : Node → Encoding Nat) (rows : Encoding Nat) (op : String)
    (args : List Argument) (whole : Node) : Encoding Reading := do
  match op with
  | "is_null" | "isnull" => nullness members false args
  | "is_not_null" => nullness members true args
  | "in" => membership members false args
  | "nin" => membership members true args
  | "like" | "not_like" => do
    let cell ← readingAt args 0
    Like.encode op cell (← literalValue (← argument args 1).node)
  | "abs" => do
    let (val, null) ← readingAt args 0
    return (← val.abs, null)
  | "ifnull" => do
    let a ← readingAt args 0
    return Reading.orNext a (← readingAt args 1)
  | "min" | "max" | "count" | "sum" | "avg" => do
    let _ ← rows
    return Reading.missing
  | "power" => power args
  | "any_value" | "concat" | "trim" | "ltrim" | "rtrim" => readingAt args 0
  | "extract" => readingAt args 1
  | _ =>
    match shared op args with
    | some a => a
    | none => throw (.unsupported (some (← reprOf whole)))

/-! ## Readers -/

def cellReading (place : Nat) (row : Int) (name : Value) : Encoding Reading := do
  let c ← column place name
  let t ← table place
  let cell ← cell t.id row c.id
  return (cell.val, cell.isNull)

/-- The cell of a table at a row, unless the table has no such column. -/
def cellReading? (place : Nat) (row : Int) (name : Value) : Encoding (Option Reading) :=
  tryCatch (do return some (← cellReading place row name)) fun
    | .unresolved _ => return none
    | f => throw f

/-- Reads an expression at a row of a table. A name that is no column of the table may be the alias
of a target of the query, where targets are known; else it is a column of a table around the query,
at the outer row. -/
def atRow (sub : Subquery) (place : Nat) (row : Int) (outer : Option Int) (targets : Option (List Node))
    (reader : Nat) : Nat → Reader
  | 0 =>
    { column := fun _ ↦ throw .tooDeep
      constant := fun _ ↦ throw .tooDeep
      scalar := fun _ ↦ throw .tooDeep
      function := fun _ _ _ ↦ throw .tooDeep }
  | depth + 1 =>
    { column := fun name ↦ do
        match ← cellReading? place row name with
        | some a => return a
        | none =>
          match targets with
          | none => throw .absentField
          | some ts =>
            match ← targetNamed name ts with
            | some t => encode (atRow sub place row outer targets reader depth) t
            | none => do
              let owner := (← dotted name).headD ""
              let other ← findTable (.str owner)
              match outer with
              | none => throw .broken
              | some o => cellReading other o name
      constant := constant true
      scalar := fun n ↦ do
        let t ← table (← sub (some row) n)
        return Reading.firstCell t.id
      function := rowFunction (subqueryTable sub reader) (do (← table place).rows) }

/-- Reads an expression at a pair of rows of two tables; a name is looked for in the left one first. -/
def atPair (sub : Subquery) (left right : Nat) (i j : Int) (reader : Nat) : Reader where
  column name := do
    match ← cellReading? left i name with
    | some a => return a
    | none => cellReading right j name
  constant := constant true
  scalar _ := throw .absentField
  function := rowFunction (subqueryTable sub reader) (throw .absentField)

def numberAtRow (sub : Subquery) (place : Nat) (row : Int) (outer : Option Int)
    (targets : Option (List Node)) (reader : Nat) (n : Node) : Encoding Reading := do
  asNumber (← encode (atRow sub place row outer targets reader aliasDepth) n)

def truthAtRow (sub : Subquery) (place : Nat) (row : Int) (outer : Option Int) (reader : Nat) (n : Node) :
    Encoding Reading := do
  asTruth (← encode (atRow sub place row outer none reader aliasDepth) n)

def truthAtPair (sub : Subquery) (left right : Nat) (i j : Int) (reader : Nat) (n : Node) :
    Encoding Reading := do
  asTruth (← encode (atPair sub left right i j reader) n)

end QueryEquiv.Expression
