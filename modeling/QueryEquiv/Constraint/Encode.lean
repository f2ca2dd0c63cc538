import QueryEquiv.Operator.Decision
import QueryEquiv.Workspace

/-!
# Integrity constraints as formulas

What the constraints of a schema say about the rows that are there. A constraint arrives as a tree with
its kind as the first key. A foreign key also notes that the referenced table has rows if the other one
has; this further condition is kept apart.
-/

namespace QueryEquiv.Integrity

open Operator Workspace

/-! ## Parts of a constraint -/

/-- The pieces of a text between full stops. -/
def pieces (v : Value) : Outcome (List String) := dotted v

/-- The piece after the first full stop. -/
def second (ps : List String) : Outcome String :=
  match ps[1]? with
  | some p => .ok p
  | none => .error .outOfRange

def first (ps : List String) : Value := .str (ps.headD "")

/-- Whether a column has a name, where both are taken in lower case. -/
def named (c : Column) (ps : List String) : Outcome Bool := do
  let own ← lowered c.name
  return own == Text.lower (← second ps)

def namedExactly (c : Column) (ps : List String) : Outcome Bool := do
  return c.name.same (.str (Text.lower (← second ps)))

def lastNamed (t : Table) (ps : List String) : Outcome (Option Int) :=
  t.columns.foldlM (fun found c ↦ do if ← named c ps then return some c.id else return found) none

/-- The value of a constraint, where a text stands for its code. -/
def coded (v : Value) : Encoding Value := do
  match v with
  | .str _ => return .int (← code v)
  | v => return v

/-- A text with a full stop names a column. -/
def isColumnName : Value → Bool
  | .str s => Text.occursIn "." s
  | _ => false

/-- The formulas for the rows and columns of a table that a test picks. -/
def forCells (t : Table) (test : Column → Outcome Bool) (f : Nat → Column → Outcome Term) :
    Outcome (List Term) := do
  let rows ← t.rows
  (List.range rows).flatMapM fun row ↦ do
    let parts ← t.columns.mapM fun c ↦ do
      if ← test c then return [← f row c] else return []
    return parts.flatten

/-! ## Keys -/

/-- Two rows differ in a column: one of them is null there and the other is not, or both hold something
and that differs. -/
def differIn (table : Int) (i j : Nat) (column : Int) : Term :=
  let null (row : Nat) : Term := .null table row column
  .or [.ne (null i) (null j),
    .and [.and [.not (null i), .not (null j)], .ne (.cell table i column) (.cell table j column)]]

def differsFromEarlier (table : Int) (columns : List Int) (row : Nat) : Term :=
  .and ((List.range row).map fun other ↦
    .implies (.and [present table row, present table other]) (.or (columns.map (differIn table row other))))

/-- Rows differ in the key; of a primary key, no column is null. -/
def key (table : Int) (columns : List Int) (rows : Nat) (primary : Bool) : Term :=
  .and ((List.range rows).flatMap fun (row : Nat) ↦
    differsFromEarlier table columns row ::
      if primary then columns.map fun c ↦ .not (.null table row c) else [])

def encodeKey (c : Value) (kind : String) : Encoding Term := do
  let names ← c.entry kind
  let t ← table (← findTable (first (← pieces (← names.member 0))))
  let columns ← (← names.members).mapM fun n ↦ do return Text.lower (← second (← pieces n))
  let keyColumns := t.columns.filter fun c ↦ columns.any fun n ↦ c.name.same (.str n)
  return key t.id (keyColumns.map (·.id)) (← t.rows) (kind == "primary")

/-! ## Values of columns -/

def encodeEnum (c : Value) : Encoding Term := do
  let parts ← c.entry "enum"
  let ps ← pieces (← parts.member 0)
  let vals ← (← (← parts.member 1).members).mapM coded
  let t ← table (← findTable (first ps))
  return .and (← forCells t (namedExactly · ps) fun row c ↦
    return .implies (present t.id row) (.or (vals.map fun v ↦ .eq (.cell t.id row c.id) (.int v))))

def encodeComparison (c : Value) (kind : String) (op : Comparison) : Encoding Term := do
  let parts ← c.entry kind
  let right ← parts.member 1
  let ls ← pieces (← parts.member 0)
  if isColumnName right then
    let rs ← pieces right
    let t ← table (← findTable (first ls))
    let u ← table (← findTable (first rs))
    if t.id != u.id then throw .broken
    let found ← t.columns.foldlM (fun (a, b) c ↦ do
      let a := if ← named c ls then some c.id else a
      let b := if ← named c rs then some c.id else b
      return (a, b)) (none, none)
    match found with
    | (some a, some b) =>
      return .and ((List.range (← t.rows)).map fun (row : Nat) ↦
        .implies (present t.id row) (.and [.cmp op (.cell t.id row a) (.cell t.id row b)]))
    | _ => throw .broken
  else
    let val := match right with
      | .date d => .int d.days
      | v => v
    let t ← table (← findTable (first ls))
    return .and (← forCells t (namedExactly · ls) fun row c ↦
      return .implies (present t.id row) (.and [.cmp op (.cell t.id row c.id) (.int val)]))

def encodeDomain (c : Value) : Encoding Term := do
  let parts ← c.entry "domain"
  let ps ← pieces (← parts.member 0)
  let lo ← parts.member 1
  let hi ← parts.member 2
  let t ← table (← findTable (first ps))
  return .and (← forCells t (named · ps) fun row c ↦
    return .implies (present t.id row)
      (.and [.ge (.cell t.id row c.id) (.int lo), .le (.cell t.id row c.id) (.int hi)]))

def encodeNotNull (c : Value) : Encoding Term := do
  let ps ← pieces (← c.entry "not_null")
  let t ← table (← findTable (first ps))
  return .and (← forCells t (named · ps) fun row c ↦
    return .implies (present t.id row) (.not (.null t.id row c.id)))

/-- Some row holds one of the values. -/
def encodeInclusion (c : Value) : Encoding Term := do
  let parts ← c.entry "inclusion1"
  let ps ← pieces (← (← (← parts.member 0).entry "val").member 0)
  let vals ← (← parts.members).mapM fun pair ↦ do coded (← (← pair.entry "val").member 1)
  let t ← table (← findTable (first ps))
  let found ← lastNamed t ps
  let rows ← t.rows
  match found with
  | none => if rows == 0 then return .or [] else throw .unassigned
  | some column =>
    return .or ((List.range rows).map fun (row : Nat) ↦
      .and [present t.id row,
        .or (vals.map fun v ↦
          .and [.not (.null t.id row column), .eq (.cell t.id row column) (.int v)])])

/-! ## Foreign keys -/

def rowCount (table : Int) (rows : Nat) : Term :=
  .sum ((List.range rows).map fun row ↦ .indicator (present table row))

/-- A cell is null, or some row of another table holds its value. -/
def references (table : Int) (row : Nat) (column : Int) (other : Int) (rows : Nat) (otherColumn : Int) : Term :=
  let null : Term := .null table row column
  .implies (present table row)
    (.or [null,
      .and [.not null,
        .or ((List.range rows).map fun (r : Nat) ↦
          .and [present other r, .not (.null other r otherColumn),
            .eq (.cell table row column) (.cell other r otherColumn)])]])

def encodeForeignKey (c : Value) : Encoding Term := do
  let parts ← c.entry "eq"
  let right ← parts.member 1
  if !isColumnName right then throw (.unsupported (some s!"{c.text} is not implemented"))
  let ls ← pieces (← parts.member 0)
  let rs ← pieces right
  let t ← table (← findTable (first ls))
  let u ← table (← findTable (first rs))
  let rows ← t.rows
  let others ← u.rows
  modify fun w ↦ { w with extra := w.extra ++ [.implies (rowCount t.id rows) (rowCount u.id others)] }
  let target ← lastNamed u rs
  return .and (← forCells t (named · ls) fun row c ↦
    match target with
    | some column => return references t.id row c.id u.id others column
    | none => if others == 0 then return references t.id row c.id u.id others 0 else throw .unassigned)

/-! ## All constraints -/

/-- The kind of a constraint is its first key. -/
def kindOf (c : Value) : Outcome Value := do
  match ← c.members with
  | k :: _ => return k
  | [] => .error .exhausted

def encodeOne (c : Value) : Encoding (List Term) := do
  let unknown : Encoding (List Term) := do
    note .warning s!"{c.text} is not implemented"
    return []
  match ← kindOf c with
  | .str kind =>
    match kind with
    | "primary" | "distinct" => return [← encodeKey c kind]
    | "eq" => return [← encodeForeignKey c]
    | "enum" => return [← encodeEnum c]
    | "gt" => return [← encodeComparison c kind .gt]
    | "gte" => return [← encodeComparison c kind .ge]
    | "lt" => return [← encodeComparison c kind .lt]
    | "lte" => return [← encodeComparison c kind .le]
    | "neq" => return [← encodeComparison c kind .ne]
    | "domain" => return [← encodeDomain c]
    | "inclusion1" => return [← encodeInclusion c]
    | "not_null" => return [← encodeNotNull c]
    | _ => unknown
  | _ => unknown

/-- The formula of a list of constraints. A constraint of an unknown kind is only noted. -/
def encode (constraints : List Value) : Encoding Term := do
  let parts ← constraints.mapM encodeOne
  return .and parts.flatten

end QueryEquiv.Integrity
