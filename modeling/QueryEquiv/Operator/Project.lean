import QueryEquiv.Encode.Group
import QueryEquiv.Operator.Result

/-!
# Projections

A projection computes the columns of its result from each row of a table, or from each group of a
grouped table. A projection with an aggregate and without groups has a single row.
-/

namespace QueryEquiv.Operator

open Workspace

/-- How a column of the result comes about. -/
inductive Target where
  | column (id : Int)
  | computed (expression : Node)

namespace Project

/-! ## Columns -/

def qualified (c : Column) : Node := .column (.str s!"{c.table.text}.{c.name.text}") .null

/-- The targets with every star replaced by the columns that it stands for. -/
def expandStar (columns : List Column) : Node → Outcome (List Node)
  | .column name byname =>
    if name.same (.str "*") then .ok (columns.map qualified)
    else do
      if ← name.has "*" then
        let owner := Text.lower ((← dotted name).headD "")
        let own ← columns.filterM fun c ↦ do return (← lowered c.table) == owner
        return own.map qualified
      else return [.column name byname]
  | n => .ok [n]

/-- The table and the column that a name asks for. -/
def nameParts (name : Value) : Outcome (Option String × Value) := do
  if ← name.has "." then
    match ← dotted name with
    | t :: a :: _ => return (some t, .str a)
    | _ => .error .outOfRange
  else return (none, name)

def resolve (owner : Option String) (name : Value) : List Column → Outcome (Option Column)
  | [] => .ok none
  | c :: cs => do
    let fits ← match owner, c.table with
      | none, _ => pure true
      | _, .null => pure true
      | some o, own => do pure ((← lowered own) == Text.lower o)
    if fits then
      if (← lowered c.name) == (← lowered name) then return some c else resolve owner name cs
    else resolve owner name cs

def hasAggregateCall (text : String) : Bool :=
  let text := Text.lower text
  Node.aggregateNames.any fun name ↦ Text.occursIn (name ++ "(") text

/-- The text of an expression without its alias. -/
def plainText : Node → Encoding String
  | .expression o args _ => do
    let n ← Node.apply o args .null
    textOf n
  | .caseWhen _ _ _ => do
    let n ← Node.apply (.str "case") [] .null
    textOf n
  | .ifThen c y n _ => do
    let n ← Node.apply (.str "if") [c, y, n] .null
    textOf n
  | n => textOf n

/-- The column of the result for a target, how it comes about, and whether it is an aggregate. -/
def targetColumn (source : Table) (id : Nat) (target : Node) :
    Encoding (Column × Target × Bool) := do
  match target with
  | .column name byname => do
    let (owner, attr) ← nameParts name
    match ← resolve owner attr source.columns with
    | none =>
      throw (.unresolved
        s!"Attribute '{name.text}' does not exist in T{source.id} ({source.name.text})\n{source.text}")
    | some c =>
      let d := match byname with
        | .null => { c with id }
        | a => { c with id, name := a, former := name }
      return (d, .column c.id, false)
  | _ =>
    if target.isExpression then
      let byname ← Expression.aliasOf target
      let name ← match byname with
        | .null => do pure (.str (← textOf target))
        | a => pure a
      let former ← match byname with
        | .null => pure .null
        | _ => do pure (.str (← plainText target))
      let text ← textOf target
      return (.computed id name former, .computed target, hasAggregateCall text)
    else if target.isLiteral then
      let byname ← Expression.aliasOf target
      let name ← match byname with
        | .null => do pure (.str (← textOf target))
        | a => pure a
      return (.computed id name .null, .computed target, false)
    else
      let _ ← textOf target
      throw .wrongKind

def targetColumns (source : Table) : Nat → List Node → Encoding (List (Column × Target × Bool))
  | _, [] => return []
  | id, t :: ts => do
    let c ← targetColumn source id t
    return c :: (← targetColumns source (id + 1) ts)

/-! ## Formulas -/

def holds (cell : Cell) (r : Reading) : List Term := [.eq cell.val r.1, .eq cell.isNull r.2]

/-- The cases for a row: kept if it is there, otherwise dropped. -/
def rowCases (input output : Int) (row : Nat) (mapping : List Term) : List Term :=
  [.implies (kept output row) (.and [present input row, .and mapping, present output row]),
    .implies (dropped output row) (.and [absent input row, absent output row])]

def cases (input output : Int) (mappings : List (List Term)) : List Term :=
  mappings.zipIdx.flatMap fun (m, i) ↦ rowCases input output i m

def isFirst (input : Int) (row : Nat) : Term :=
  .and [present input row, .and ((List.range row).map (absent input))]

def isFirstInGroup (groups : Int) (group row : Nat) : Term :=
  .and [.grouping groups row group,
    .and ((List.range row).map fun (earlier : Nat) ↦ .not (.grouping groups earlier group))]

def singleRow (output : Int) (mapping : List Term) : Term :=
  .and [present output 0, .and mapping, kept output 0]

/-- The case for a group that is kept. The choices for the groups stand after those for the rows. -/
def groupCase (groups : Int) (start group : Nat) (mapping : List Term) : Term :=
  .implies (kept groups (start + group)) (.and [.and mapping])

def groupCases (groups : Int) (start : Nat) (mappings : List (List Term)) : List Term :=
  mappings.zipIdx.map fun (m, i) ↦ groupCase groups start i m

/-! ## Mappings -/

def rowMapping (sub : Expression.Subquery) (input : Nat) (output : Int) (reader : Nat) (row : Nat) :
    List (Target × Nat) → Encoding (List Term)
  | [] => return []
  | (target, i) :: rest => do
    let inputId := (← table input).id
    let out ← cell? output row i
    let part ← match target with
      | .column c => do
        let source ← cell? inputId row c
        match out, source with
        | some out, some source => pure (holds out (source.val, source.isNull))
        | _, _ => throw .absentField
      | .computed e => do
        let r ← Expression.numberAtRow sub input row none none reader e
        match out with
        | some out => pure (holds out r)
        | none => throw .absentField
    return part ++ (← rowMapping sub input output reader row rest)

def singleMapping (sub : Expression.Subquery) (input : Nat) (output : Int) (reader rows : Nat) :
    List (Target × Nat) → Encoding (List Term)
  | [] => return []
  | (target, i) :: rest => do
    let inputId := (← table input).id
    let out ← cell? output 0 i
    let part ← match target with
      | .column c => (List.range rows).mapM fun (row : Nat) ↦ do
        let copy ← copyOf (inputId, row, c) (output, 0, i)
        return .implies (isFirst inputId row) copy
      | .computed e => do
        let r ← Expression.numberAtRow sub input 0 none none reader e
        match out with
        | some out => pure (holds out r)
        | none => throw .absentField
    return part ++ (← singleMapping sub input output reader rows rest)

def groupMapping (sub : Expression.Subquery) (g : Expression.GroupOfRows) (groups : Int) (group : Nat)
    (memo rows : Nat) : List (Target × Nat) → Encoding (List Term)
  | [] => return []
  | (target, i) :: rest => do
    let inputId := (← table g.members).id
    let out ← cell? groups group i
    let part ← match target with
      | .column c => (List.range rows).mapM fun (row : Nat) ↦ do
        let copy ← copyOf (inputId, row, c) (groups, group, i)
        return .implies (isFirstInGroup groups group row) copy
      | .computed e => do
        let r ← Expression.inGroup sub g false memo e
        match out with
        | some out => pure (holds out r)
        | none => throw .absentField
    return part ++ (← groupMapping sub g groups group memo rows rest)

/-! ## The result -/

/-- The table that a grouped table was made from. -/
def groupedTable (t : Table) : Encoding Nat :=
  match t.ancestors with
  | .one p :: _ => return p
  | .several _ :: _ => throw .absentField
  | [] => throw .outOfRange

def projectRows (sub : Expression.Subquery) (input output : Nat) (cut : Option Nat) (k : Value)
    (label : Option String) (targets : List (Target × Nat)) (single : Bool) : Encoding Nat := do
  let reader ← newReader
  let t ← table input
  let id := (← table output).id
  if single then
    changeTable output ({ · with bound := .int 1 })
    let mapping ← singleMapping sub input id reader (← t.rows) targets
    append (singleRow id mapping) label
    return output
  else
    let rows ← (← table output).rows
    let mappings ← (List.range rows).mapM fun row ↦ rowMapping sub input id reader row targets
    settle output cut k label (.choice id ·) (kept id) (cases t.id id mappings) (allDecided id rows)

def projectGroups (sub : Expression.Subquery) (members output : Nat) (cut : Option Nat) (k : Value)
    (label : Option String) (targets : List (Target × Nat)) : Encoding Nat := do
  let memo ← newReader
  let t ← table output
  let rows ← (← table members).rows
  let start ← t.rows
  let mappings ← (List.range start).mapM fun (group : Nat) ↦
    groupMapping sub ⟨output, members, group, none⟩ t.id group memo rows targets
  settle output cut k label (fun group ↦ .choice t.id (start + group : Nat))
    (fun group ↦ kept t.id (start + group)) (groupCases t.id start mappings) (allDecided t.id (start * 2))

/-- The columns of the result for targets, read from the columns of a table. -/
def readTargets (source : Table) (targets : List Node) : Encoding (List (Column × Target × Bool)) := do
  let targets ← (← copied targets).flatMapM fun t ↦ expandStar source.columns t
  targetColumns source 0 targets

/-- The result gets its columns and tells how it came about. -/
def describe (output source : Nat) (step : String) (columns : List Column) : Encoding Unit := do
  let id := (← table source).id
  changeTable output fun t ↦
    { t with
      columns := t.columns ++ columns
      ancestors := t.ancestors ++ [.one source]
      lineage := some s!"{step} from T{id}" }
  addTable output

/-- The result tells the labels of its clause. -/
def takeLabels (output tag : Nat) : Encoding (Option String) := do
  let c ← clause tag
  changeTable output fun t ↦
    { t with origin := some { label := c.label, distinct := some c.distinct, grouping := some c.grouping } }
  return c.label

/-- The projection of a table that is not grouped. -/
def applyToRows (sub : Expression.Subquery) (input tag : Nat) (targets : List Node) (k : Value) :
    Encoding Nat := do
  let source ← table input
  let id ← newTableId
  let columns ← readTargets source targets
  let output ← enter { id, name := source.name, bound := source.bound }
  describe output input "Projected" (columns.map (·.1))
  let label ← takeLabels output tag
  let single := columns.any (·.2.2)
  let cut ← if single then pure none else cutDown output k
  projectRows sub input output cut k label (columns.map (·.2.1)).zipIdx single

/-- The projection of a grouped table, which takes the place of the table of the groups. -/
def applyToGroups (sub : Expression.Subquery) (output tag : Nat) (targets : List Node) (k : Value) :
    Encoding Nat := do
  let members ← groupedTable (← table output)
  let columns ← readTargets (← table members) targets
  describe output members "Grouped and projected" (columns.map (·.1))
  match (← table output).origin with
  | some origin => changeClause tag ({ · with grouping := origin.label })
  | none => throw .absentField
  let label ← takeLabels output tag
  let cut ← if columns.any (·.2.2) then pure none else cutDown output k
  projectGroups sub members output cut k label (columns.map (·.2.1)).zipIdx

/-- The result of a projection with the targets of the clause of a tag. -/
def apply (sub : Expression.Subquery) (place : Nat) (tag : Nat) (targets : List Node) (k : Value) :
    Encoding Nat := do
  let input ← copyTable place
  if ← (← table input).mentions "Grouped from" then applyToGroups sub input tag targets k
  else applyToRows sub input tag targets k

end Project

end QueryEquiv.Operator
