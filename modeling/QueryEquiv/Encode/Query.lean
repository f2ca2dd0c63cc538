import QueryEquiv.Encode.Label
import QueryEquiv.Operator.Filter
import QueryEquiv.Operator.GroupBy
import QueryEquiv.Operator.Matching
import QueryEquiv.Operator.OrderBy
import QueryEquiv.Operator.Project
import QueryEquiv.Operator.Union

/-!
# Encoding queries

A query is carried out clause by clause: its common tables, its source, the filter, the grouping and the
targets. Each clause takes the table at hand and leaves its result; the sort at the end is left out, as
results are compared as bags.

A query inside an expression is encoded while the expression is read, so encoding queries and reading
expressions need each other. The depth of that nesting is bounded by a number.
-/

namespace QueryEquiv

open Workspace

/-! ## Tables under other names -/

/-- A table under an alias. A table of the schema is kept, and the alias is another table with the same
rows that only the current query can see; any other table is renamed. -/
def aliasTable (place : Nat) (byname : Value) : Encoding Nat := do
  let t ← table place
  if ← t.mentions "Scan" then
    let id ← newTableId
    let copy ← enter ({ t with id, scope := (← get).currentQuery }.retitled byname)
    modify fun w ↦
      let db := w.database.touch t.id
      { w with database :=
          { db with rows := Database.put id (db.rowsOf t.id) db.rows
                    places := Database.put id copy db.places } }
    let label := s!"scan_{t.name.text}"
    for row in List.range (← t.rows) do
      append (.eq (.choice id row) (.choice t.id row)) (some label)
      append (.eq (.deleted id row) (.deleted t.id row)) (some label)
    return copy
  else
    retitle place byname
    let scope := (← get).currentQuery
    changeTable place ({ · with scope })
    return place

/-- The alias is applied if there is one. -/
def aliasIfAny (place : Nat) (byname : Value) : Encoding Nat :=
  match byname with
  | .null => return place
  | a => aliasTable place a

def scanTable (name : Value) : Encoding Nat := do
  let place ← findTable name
  changeTable place fun t ↦ { t with lineage := some (t.lineage.getD "Scanned from initial schema") }
  let _ ← (← table place).rows
  return place

/-! ## Clauses -/

/-- A step of a query, which reads and replaces the table at hand. -/
abbrev Step := StateT (Option Nat) Encoding

namespace Query

/-- The label of a clause and the size that goes with it. -/
def sized (tag : Nat) : Encoding (Option String × Value) := do
  let label := (← clause tag).label
  return (label, ← (← get).formulas.size label)

def atHand : Step Nat := do
  match ← get with
  | some t => return t
  | none => throw .absentField

def unionOrigin (c : ClauseState) : Origin :=
  { label := c.label, distinct := c.distinct.map some }

def filterStep (sub : Expression.Subquery) (outer : Option Int) (tag : Nat) (predicate : Node) :
    Step Nat := do
  let (label, k) ← sized tag
  Operator.Filter.apply sub (← atHand) label predicate k outer

/-- The targets of a table, each result once if duplicates are to be eliminated. -/
def select (sub : Expression.Subquery) (place tag : Nat) (targets : List Node) (distinct k : Value) :
    Encoding Nat := do
  let output ← Operator.Project.apply sub place tag targets k
  if distinct.truthy then
    let c ← clause tag
    Operator.Distinct.apply output
      { label := c.label, distinct := some c.distinct, grouping := some c.grouping }
  else return output

def projectStep (sub : Expression.Subquery) (tag : Nat) (targets : List Node) (distinct : Value) :
    Step Nat := do
  let (_, k) ← sized tag
  select sub (← atHand) tag targets distinct k

def groupStep (sub : Expression.Subquery) (tag : Nat) (keys : List Node) (having : Node)
    (targets : Option (List Node)) : Step Nat := do
  let input ← atHand
  Operator.GroupBy.apply sub input (← clause tag).label keys having targets

def orderStep (sub : Expression.Subquery) (tag : Nat) (keys : List Node) (orders : List Value)
    (limit : Value) : Step Nat := do
  let (label, k) ← sized tag
  Operator.OrderBy.apply sub (← atHand) label keys orders limit k

/-- A join of a kind. A right join is a left join with the sides exchanged. -/
def joinBy (sub : Expression.Subquery) (kind : Operator.Join.Kind) (left right : Nat)
    (r : Operator.Join.Request) (k : Value) : Encoding Nat :=
  match kind with
  | .inner => Operator.Join.pairwise sub true left right r k
  | .left => Operator.Join.leftJoin sub left right r k
  | .right => Operator.Join.leftJoin sub right left r k
  | .full => Operator.Matching.apply sub true left right r k
  | .product => Operator.Join.pairwise sub false left right r k

/-- A join of two tables. A join without a condition is given the condition truth. -/
def joinTables (sub : Expression.Subquery) (tag : Nat) (left right : Nat) (kind : Value)
    (cond shared : Node) : Encoding Nat := do
  let joinKind ← Operator.Join.Kind.ofName kind
  let (label, k) ← sized tag
  if cond.isMissing then modify fun w ↦ { w with completed := tag :: w.completed }
  let cond := if cond.isMissing then .lit (.bool true) else cond
  joinBy sub joinKind left right { label, kind, cond, shared } k

def targetsOf : Node → Encoding (List Node)
  | .project _ ts _ => return ts
  | _ => throw .absentField

/-- Labels are given once. -/
def prepareOnce (tag : Nat) (n : Node) : Encoding Unit := do
  if !(← clause tag).prepared then
    Labels.prepare n
    changeClause tag ({ · with prepared := true })

mutual

/-- The table of a query or of a clause. -/
def encode (sub : Expression.Subquery) (outer : Option Int) : Node → Step Nat
  | .query tag withs select source wh group order byname => do
    prepareOnce tag (.query tag withs select source wh group order byname)
    match withs with
    | none => pure ()
    | some ws => encodeWiths sub outer ws
    set (some (← encode sub outer source))
    if !wh.isMissing then set (some (← encode sub outer wh))
    if !group.isMissing then
      let targets ← targetsOf select
      match group with
      | .groupBy tag keys having => set (some (← groupStep sub tag keys having (some targets)))
      | _ => set (some (← encode sub outer group))
    let output ← encode sub outer select
    let output ← aliasIfAny output byname
    set (some output)
    return output
  | .union tag queries keeps byname => do
    if !(← getThe Workspace).settled then prepareOnce tag (.union tag queries keeps byname)
    let inputs ← encodeEach sub queries
    let _ ← sized tag
    let c ← clause tag
    let output ← Operator.Union.apply inputs (unionOrigin c) keeps.truthy
    let output ← aliasIfAny output byname
    set (some output)
    return output
  | .scan name byname => do
    let place ← scanTable name
    aliasIfAny place byname
  | .join tag left right kind cond shared => do
    let l ← encode sub outer left
    let r ← encode sub outer right
    joinTables sub tag l r kind cond shared
  | .groupBy tag keys having => groupStep sub tag keys having none
  | .filter tag predicate => filterStep sub outer tag predicate
  | .project tag targets distinct => projectStep sub tag targets distinct
  | .orderBy tag keys orders limit => orderStep sub tag keys orders limit
  | _ => throw .absentField

/-- The tables of queries that do not see each other. -/
def encodeEach (sub : Expression.Subquery) : List Node → Encoding (List Nat)
  | [] => return []
  | q :: qs => do
    let (t, _) ← (encode sub none q).run none
    return t :: (← encodeEach sub qs)

/-- The common tables of a query, which get their names. -/
def encodeWiths (sub : Expression.Subquery) (outer : Option Int) : List (Value × Node) → Step Unit
  | [] => return
  | (name, q) :: rest => do
    let t ← encode sub outer q
    retitle t name
    encodeWiths sub outer rest

end

/-- How deep queries may be nested in expressions. -/
def nestingDepth : Nat := 100

/-- Queries inside expressions, up to a depth. -/
def nested : Nat → Expression.Subquery
  | 0 => fun _ _ ↦ throw .tooDeep
  | depth + 1 => fun outer n ↦ do
    let (t, _) ← (encode (nested depth) outer n).run none
    return t

/-- Queries inside expressions. -/
def subquery : Expression.Subquery := nested nestingDepth

def table (n : Node) : Encoding Nat := do
  let (t, _) ← (encode subquery none n).run none
  return t

/-- The table of a query sorted by its last clause. -/
def sortedTable (n : Node) (place : Nat) : Encoding Nat := do
  match n with
  | .query _ _ _ _ _ _ order _ => do
    let (t, _) ← (encode subquery none order).run (some place)
    return t
  | _ => throw .absentField

end Query

end QueryEquiv
