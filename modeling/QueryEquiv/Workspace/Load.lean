import QueryEquiv.Constraint.Encode

/-!
# Loading a schema

A workspace starts from a schema: a table for each of its tables, and the constraints that its keys and
its enumerated columns imply, which are added to those given. Clearing a workspace loads the schema
again.
-/

namespace QueryEquiv.Workspace

/-! ## Columns -/

/-- The pieces of the type of a column between commas: the type itself, and what an enumeration lists. -/
def typeParts (col : Value) : Outcome (List String) := do
  match ← col.entry "Type" with
  | .str s =>
    let (cuts, last) := (Text.Pattern.char ',').cut s.toList
    return cuts.map (fun (before, _) ↦ String.ofList before) ++ [String.ofList last]
  | _ => .error .absentField

/-- A table of the schema while it is loaded. -/
structure Loading where
  name : String
  columns : List Column := []
  /-- The constraints of the enumerated columns so far. -/
  enums : List Value

def Loading.hasColumn (l : Loading) (name : String) : Bool :=
  l.columns.any fun c ↦ c.name.same (.str name)

/-- Adds a column. An enumerated column holds texts, and is constrained to what its type lists. -/
def Loading.add (l : Loading) (name : String) (type : Option String) (listed : Outcome (List String)) :
    Outcome Loading := do
  let enumerated := type == some "enum"
  let enums ← if enumerated then do
      let vals := (← listed).map Value.str
      pure (l.enums ++ [.object [("enum", .list [.str s!"{l.name}.{name}", .list vals])]])
    else pure l.enums
  let columnType : Value := if enumerated then .str "varchar"
    else match type with
      | some t => .str t
      | none => .null
  let c ← Column.make l.columns.length (.str name) columnType (.str l.name) .null
  return { l with columns := l.columns ++ [c], enums }

def Loading.addTyped (l : Loading) (name : String) (col : Value) : Outcome Loading := do
  let parts ← typeParts col
  l.add name parts.head? (.ok (parts.drop 1))

/-- The position of the table that a foreign key refers to. -/
def referredPosition (col : Value) : Outcome Int := do (← col.entry "PTable").truncated

def tableAt (schema : Value) (i : Int) : Outcome Value :=
  match schema with
  | .list ts => Table.atPosition ts i
  | .object _ => .error .absentKey
  | _ => .error .wrongKind

/-- The type of the key column that a foreign key refers to, if it is a key column. -/
def referredType (target name : Value) : Outcome (Option String) := do
  let keys ← (← target.entry "PKeys").members
  let rec find : List Value → Outcome (Option String)
    | [] => .ok none
    | k :: ks => do
      if (← k.entry "Name").same name then return (← typeParts k).head? else find ks
  find keys

/-- A foreign key has the type of the key that it refers to. -/
def Loading.addForeign (l : Loading) (schema col : Value) : Outcome Loading := do
  let name ← lowered (← col.entry "FName")
  if l.hasColumn name then return l
  else
    let position ← referredPosition col
    let target ← col.entry "PName"
    let type ← referredType (← tableAt schema position) target
    l.add name type (do return (← typeParts col).drop 1)

def Loading.addKey (l : Loading) (col : Value) : Outcome Loading := do
  let name ← lowered (← col.entry "Name")
  l.addTyped name col

def Loading.addOther (l : Loading) (col : Value) : Outcome Loading := do
  let name ← lowered (← col.entry "Name")
  if l.hasColumn name then return l else l.addTyped name col

/-- Reads the columns of a table. -/
def loadColumns (schema t : Value) (enums : List Value) : Outcome Loading := do
  let name ← lowered (← t.entry "TableName")
  let l : Loading := { name, enums }
  let l ← (← (← t.entry "PKeys").members).foldlM (·.addKey ·) l
  let l ← (← (← t.entry "FKeys").members).foldlM (·.addForeign schema ·) l
  (← (← t.entry "Others").members).foldlM (·.addOther ·) l

/-! ## Tables and constraints -/

def loadTables (schema : Value) : List Value → List Value → Encoding Unit
  | [], _ => return
  | t :: ts, enums => do
    let id ← newTableId
    let l ← loadColumns schema t enums
    let bound := (← get).bound
    let _ ← makeTable { id, name := .str l.name, columns := l.columns, bound }
    modify fun w ↦ { w with constraints := w.constraints ++ l.enums }
    loadTables schema ts l.enums

def primaryConstraint (name : String) (keys : Value) : Encoding Unit := do
  let columns ← (← keys.members).mapM fun c ↦ do
    let column ← lowered (← c.entry "Name")
    return Value.str s!"{name}.{column}"
  modify fun w ↦ { w with constraints := w.constraints ++ [.object [("primary", .list columns)]] }

/-- The constraints that the foreign keys of a table imply. -/
def foreignConstraints (schema t : Value) (name : String) : Encoding Unit := do
  for col in ← (← t.entry "FKeys").members do
    let column ← lowered (← col.entry "FName")
    let referred ← tableAt schema (← referredPosition col)
    let target ← lowered (← referred.entry "TableName")
    let targetColumn ← lowered (← col.entry "PName")
    let ends := [Value.str s!"{name}.{column}", Value.str s!"{target}.{targetColumn}"]
    modify fun w ↦ { w with constraints := w.constraints ++ [.object [("eq", .list ends)]] }

def keyConstraints (schema t : Value) : Encoding Unit := do
  let name ← lowered (← t.entry "TableName")
  let keys ← t.entry "PKeys"
  if (← keys.count) > 0 then primaryConstraint name keys
  foreignConstraints schema t name

def loadSchema : Encoding Unit := do
  modify ({ · with extra := [] })
  let schema := (← get).schema
  let tables ← schema.members
  loadTables schema tables []
  for t in tables do
    keyConstraints schema t

/-- The formula of the constraints stands under a label of its own. -/
def loadConstraints : Encoding Unit := do
  let f ← Integrity.encode (← get).constraints
  append f (some "ic")

/-- The sizes that results are cut down to if none are given. -/
def standardSizes : Value :=
  .object (["filter", "project", "union", "inner join", "left join", "right join", "full join", "product",
    "order by"].map fun kind ↦ (kind, .int 2))

def start (schema : Value) (constraints : List Value) (bound timeBudget sizes : Value) : Encoding Unit := do
  set { schema, constraints, bound, timeBudget, formulas := { timeout := timeBudget } : Workspace }
  loadSchema
  let sizes := match sizes with
    | .null => standardSizes
    | s => s
  modify ({ · with sizes })
  loadConstraints

/-- Clears a workspace: everything that encoding queries added is dropped, and the schema is loaded once
more. The constraints that it implies are added again. -/
def clear : Encoding Unit := do
  modify ({ · with database := {}, lastTable := -1, codes := {}, formulas := {} })
  loadSchema
  loadConstraints
  modify ({ · with approximations := [] })

end QueryEquiv.Workspace
