import QueryEquiv.Ast.Tag
import QueryEquiv.Ast.Text
import QueryEquiv.Encode.Like

/-!
# Encoding expressions

An expression is read somewhere: at a row, at a pair of rows, or in a group of rows. What its columns,
functions and subqueries stand for there is the business of a reader; the encoding itself goes down the
expression and combines the readings of its parts.
-/

namespace QueryEquiv

namespace Workspace

/-- A tree with tags that are not in use. -/
def tagged (n : Node) : Encoding Node := do
  let w ← get
  let (n, s) := n.retag.run { next := w.nextTag }
  set { w with nextTag := s.next }
  return n

/-- Copies of trees as they are now: what is known of their clauses is known of the copies. -/
def copied (ns : List Node) : Encoding (List Node) := do
  let w ← get
  let (ns, s) := (Node.retags (Node.completes w.completed ns)).run { next := w.nextTag }
  let known := s.renamed.filterMap fun (old, new) ↦ (w.clauses.lookup old).map ((new, ·))
  set { w with nextTag := s.next, clauses := w.clauses ++ known }
  return ns

/-- The text of a tree as it is now. -/
def textOf (n : Node) : Encoding String := do (n.complete (← get).completed).text

/-- The constructor calls of a tree as it is now. -/
def reprOf (n : Node) : Encoding String := do (n.complete (← get).completed).repr

end Workspace

namespace Expression

open Workspace

/-- The reading of a constant. Texts are coded, dates are days, and times are seconds. -/
def constant (timed : Bool) (v : Value) : Encoding Reading := do
  match v with
  | .null => return Reading.missing
  | .bool _ => return Reading.certain (.bool v)
  | .int _ | .float _ => return Reading.certain (.int v)
  | .str _ => return Reading.certain (.ofInt (← code v))
  | .date d => return Reading.certain (.ofInt d.days)
  | .time t => if timed then return Reading.certain (.ofInt t.seconds) else throw (.unsupported none)
  | _ => throw (.unsupported none)

/-- The name of a column, a function or an operator. -/
def nameOf : Node → Encoding Value
  | .column n _ | .function n | .operator n => return n
  | _ => throw .absentField

def literalValue : Node → Encoding Value
  | .literal v _ => return v
  | _ => throw .absentField

def asNumber (r : Reading) : Encoding Reading := do return (← r.1.ensureNumber, r.2)

def asTruth (r : Reading) : Encoding Reading := do return (← r.1.ensureTruth, r.2)

/-- The alias of a target; only some nodes have one. -/
def aliasOf : Node → Encoding Value
  | .column _ a | .literal _ a | .expression _ _ a | .caseWhen _ _ a | .ifThen _ _ _ a | .scan _ a
  | .query _ _ _ _ _ _ _ a | .union _ _ _ a => return a
  | _ => throw .absentField

/-- The first target with an alias. -/
def targetNamed (name : Value) : List Node → Encoding (Option Node)
  | [] => return none
  | t :: ts => do
    if (← aliasOf t).same name then return some t else targetNamed name ts

/-! ## Functions of arguments -/

/-- An argument of a function: the node, how it is read, and how its members are read if it is a
list. -/
structure Argument where
  node : Node
  reading : Encoding Reading
  members : Option (List (Encoding Reading))

def argument (args : List Argument) (i : Nat) : Encoding Argument :=
  match args[i]? with
  | some a => return a
  | none => throw .outOfRange

def readingAt (args : List Argument) (i : Nat) : Encoding Reading := do (← argument args i).reading

def inTurn : List (Encoding Reading) → Encoding (List Reading)
  | [] => return []
  | a :: as => do
    let x ← a
    return x :: (← inTurn as)

/-- The first reading that is not null, else the last. -/
def firstPresent : List Argument → Encoding Reading
  | [] => throw .outOfRange
  | [a] => a.reading
  | a :: as => do
    let x ← a.reading
    return Reading.orNext x (← firstPresent as)

/-- Applies a range test to a value and two bounds. -/
def range (f : Reading → Reading → Reading → Outcome Reading) (args : List Argument) :
    Encoding Reading := do
  let v ← readingAt args 0
  let lo ← readingAt args 1
  f v lo (← readingAt args 2)

/-- A date moved by a number of days. -/
def moved (op : Arith) (args : List Argument) : Encoding Reading := do
  let date ← readingAt args 0
  let days ← readingAt args 1
  Reading.shift op date days.1

/-- A date moved by a number of days; a literal is taken as a number, whatever it is. -/
def movedByLiteral (op : Arith) (args : List Argument) : Encoding Reading := do
  match (← argument args 1).node with
  | .literal days _ => Reading.shift op (← readingAt args 0) (.int days)
  | _ => moved op args

/-- The days between two dates, in the unit of days only. -/
def difference (args : List Argument) : Encoding Reading := do
  match ← nameOf (← argument args 0).node with
  | .str unit =>
    if Text.upper unit == "DAY" then
      let a ← readingAt args 1
      let b ← readingAt args 2
      Reading.daysBetween b a (.or [a.2, b.2])
    else throw (.unsupported none)
  | _ => throw .absentField

/-- The functions that are the same at a row and in a group. -/
def shared (op : String) (args : List Argument) : Option (Encoding Reading) :=
  match op with
  | "round" | "str_to_date" | "cast" => some (readingAt args 0)
  | "between" => some (range Reading.between args)
  | "not_between" => some (range Reading.notBetween args)
  | "coalesce" => some (firstPresent args)
  | "timestamp" => some do
    if args.length != 2 then throw .broken
    let date ← readingAt args 0
    Reading.timestamp date (← readingAt args 1)
  | "date_add" => some (moved .add args)
  | "date_sub" => some (moved .sub args)
  | "adddate" => some (movedByLiteral .add args)
  | "subdate" => some (movedByLiteral .sub args)
  | "datediff" => some do
    let a ← readingAt args 0
    let b ← readingAt args 1
    Reading.daysBetween a b (.or [a.2, b.2])
  | "timestampdiff" => some (difference args)
  | "interval" => some do
    let unit ← nameOf (← argument args 1).node
    if unit.same (.str "day") then
      return Reading.certain (.int (← literalValue (← argument args 0).node))
    else throw (.unsupported none)
  | _ => none

/-! ## Expressions -/

/-- What the parts of an expression stand for where it is read. -/
structure Reader where
  column : Value → Encoding Reading
  constant : Value → Encoding Reading
  /-- A subquery that stands for its single cell. -/
  scalar : Node → Encoding Reading
  /-- A function or a predicate that is not an operator, with its arguments; also the whole call. -/
  function : String → List Argument → Node → Encoding Reading

mutual

def encode (r : Reader) : Node → Encoding Reading
  | .column name _ => r.column name
  | .literal v _ => r.constant v
  | .query tag ws s f w g o a => r.scalar (.query tag ws s f w g o a)
  | .caseWhen cases d _ =>
    let fallback := encode r d
    encodeCases r (if d.isMissing then return Reading.missing else do asNumber (← fallback)) cases
  | .expression (.str op) args byname =>
    if Node.isOperatorName op then do
      let readings ← inTurn (readings r args)
      Reading.operate op readings
    else r.function op (arguments r args) (.expression (.str op) args byname)
  | .expression op args byname => do
    throw (.unsupported (some (← reprOf (.expression op args byname))))
  | _ => throw .absentField

/-- The first case whose condition is true, or what follows the cases. -/
def encodeCases (r : Reader) (fallback : Encoding Reading) : List (Node × Node) → Encoding Reading
  | [] => fallback
  | (c, result) :: rest => do
    let cond ← asTruth (← encode r c)
    let result ← asNumber (← encode r result)
    return Reading.orElse cond result (← encodeCases r fallback rest)

def readings (r : Reader) : List Node → List (Encoding Reading)
  | [] => []
  | n :: ns => encode r n :: readings r ns

def memberReadings (r : Reader) : Node → Option (List (Encoding Reading))
  | .list xs => some (readings r xs)
  | .raw (.list vs) => some (vs.map fun _ ↦ throw .absentField)
  | _ => none

def arguments (r : Reader) : List Node → List Argument
  | [] => []
  | n :: ns => ⟨n, encode r n, memberReadings r n⟩ :: arguments r ns

end

/-! ## Subqueries -/

/-- The encoding of a query that stands inside an expression: its table, given the row that the
expression is read at if the query may look at it. -/
abbrev Subquery := Option Int → Node → Encoding Nat

/-- The table of a subquery, which is encoded only once for a reader and a text. -/
def subqueryTable (sub : Subquery) (reader : Nat) (n : Node) : Encoding Nat := do
  let before ← textOf n
  match (← get).subqueries.lookup (reader, before) with
  | some place => return place
  | none => do
    let place ← sub none n
    let after ← textOf n
    modify fun w ↦ { w with subqueries := Formulas.put (reader, after) place w.subqueries }
    return place

/-- How deep aliases are followed. -/
def aliasDepth : Nat := 200

/-- A choice between two expressions. Its parts are read, but a choice has no reading itself. -/
def choice (r : Reader) (cond yes no : Node) : Encoding Reading := do
  let _ ← encode r cond
  let _ ← encode r yes
  let _ ← encode r no
  throw .wrongKind

end Expression

end QueryEquiv
