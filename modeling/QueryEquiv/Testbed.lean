import QueryEquiv.Testbed.Integrity
import QueryEquiv.Text.Integer

/-!
# Testing queries on databases

Databases are created on a server, and queries are run on all of them. A query is told apart from a
reference query by a database on which their results differ. Databases that told queries apart come
first the next time.
-/

namespace QueryEquiv

/-- A server with its test databases. -/
structure Testbed where
  schema : Value
  /-- What the names of the databases start with. -/
  stem : String := "testing"
  server : Testbed.Server := {}
  /-- The databases, with the lower numbers to be tried first. -/
  databases : List (Int × Int) := []
  /-- The results of the last reference query. -/
  reference : List (Int × List (List Value)) := []

namespace Testbed

/-! ## Columns and results -/

def columnType (column : Value) : Attempt String := do
  let declared ← entryOf "Type" column
  let declared ← lowerOf (if declared.truthy then declared else .str "int")
  let declared := if Text.occursIn "char" declared then "varchar" else declared
  return match declared with
    | "numeric" => "float"
    | "varchar" | "text" => "varchar(255)"
    | "date" => "date"
    | _ => if "enum".toList.isPrefixOf declared.toList then "varchar(255)" else "bigint"

/-- Whether two results have the same rows, in order or as often. Only rows of plain values can be
counted. -/
def sameResults (inOrder : Bool) (r s : List (List Value)) : Attempt Bool :=
  if inOrder then
    .ok (r.length == s.length && (r.zip s).all fun (a, b) ↦ Value.sameList a b)
  else
    match (r ++ s).flatten.find? (!·.isKey) with
    | some v => .error ⟨.wrongKind, s!"unhashable type: '{Trouble.kindName v}'"⟩
    | none =>
      let times (row : List Value) (rows : List (List Value)) : Nat := rows.countP (Value.sameList row)
      .ok (r.length == s.length && r.all fun row ↦ times row r == times row s)

def resultText (rows : List (List Value)) : String :=
  "[" ++ ", ".intercalate (rows.map Value.tupleText) ++ "]"

/-! ## The queue of databases -/

abbrev Session := ExceptT Trouble (StateM Testbed)

def onServer {α : Type} (d : Dialogue α) : Session α := ExceptT.mk fun t ↦
  let (r, server) := d.run t.server
  (r, { t with server })

def first? (queue : List (Int × Int)) : Option (Int × Int) :=
  queue.foldl (fun best e ↦
    match best with
    | none => some e
    | some b => if e.1 < b.1 || (e.1 == b.1 && e.2 < b.2) then some e else some b) none

/-- The database that comes first, taken out of the queue. -/
def next? : Session (Option (Int × Int)) := do
  let queue := (← get).databases
  match first? queue with
  | some e => do
    modify fun t ↦ { t with databases := queue.erase e }
    return some e
  | none => return none

def enqueue (e : Int × Int) : Session Unit := modify fun t ↦ { t with databases := t.databases ++ [e] }

def inOrder (queue : List (Int × Int)) : List (Int × Int) :=
  queue.mergeSort fun a b ↦ a.1 < b.1 || (a.1 == b.1 && a.2 ≤ b.2)

def databaseName (i : Int) : Session String := do return s!"{(← get).stem}_{i}"

def enter (i : Int) : Session Unit := do
  let name ← databaseName i
  onServer (execute ("USE " ++ name))

def drop (i : Int) : Session Unit := do
  let name ← databaseName i
  onServer (execute ("DROP DATABASE IF EXISTS " ++ name))

/-! ## Creating databases -/

private def plainColumns (seen : List String) : List Value → Attempt (List String)
  | [] => .ok []
  | c :: cs => do
    if seen.contains (← lowerOf (← entryOf "Name" c)) then plainColumns seen cs
    else
      let name ← lowerOf (← entryOf "Name" c)
      let column := "\x60" ++ name ++ "\x60 " ++ (← columnType c)
      return column :: (← plainColumns seen cs)

private def referencedType (schema column : Value) : Attempt String := do
  let place ← entryOf "PTable" column
  let place ← match place with
    | .int n => pure n
    | .bool b => pure (if b then 1 else 0)
    | .str s =>
      match Text.readInt? s with
      | some n => pure n
      | none => .error ⟨.badValue, s!"invalid literal for int() with base 10: {place.repr}"⟩
    | .float x =>
      match Value.truncateFloat? x with
      | some n => pure n
      | none => .error ⟨.badValue, "cannot convert float NaN to integer"⟩
    | v => .error ⟨.wrongKind, "int() argument must be a string, a bytes-like object or a real number, not '"
        ++ Trouble.kindName v ++ "'"⟩
  let name ← entryOf "PName" column
  let tables ← membersOf schema
  let place := if place < 0 then place + tables.length else place
  let table ← if 0 ≤ place then memberOf place.toNat schema else .error (.noIndex schema)
  let columns := (← membersOf (← entryOf "PKeys" table)) ++ (← membersOf (← entryOf "Others" table))
  let rec search : List Value → Attempt String
    | [] => .error ⟨.broken, ""⟩
    | c :: cs => do
      if (← lowerOf (← entryOf "Name" c)) == (← lowerOf name) then columnType c else search cs
  search columns

private def keyColumns : List Value → Attempt (List (String × String))
  | [] => .ok []
  | c :: cs => do
    let name ← lowerOf (← entryOf "Name" c)
    let column := "\x60" ++ name ++ "\x60 " ++ (← columnType c)
    return (name, column) :: (← keyColumns cs)

private def foreignColumns (schema : Value) (seen : List String) :
    List Value → Attempt (List (String × String))
  | [] => .ok []
  | c :: cs => do
    let name ← lowerOf (← entryOf "FName" c)
    if seen.contains name then foreignColumns schema seen cs
    else
      let column := "\x60" ++ name ++ "\x60 " ++ (← referencedType schema c)
      return (name, column) :: (← foreignColumns schema (seen ++ [name]) cs)

/-- The statement that creates a table: its keys, then the foreign keys and the other columns that
are not yet there. -/
private def createStatement (schema table : Value) (name : String) : Attempt String := do
  let keys ← keyColumns (← membersOf (← entryOf "PKeys" table))
  let foreign ← foreignColumns schema (keys.map (·.1)) (← membersOf (← entryOf "FKeys" table))
  let seen := keys.map (·.1) ++ foreign.map (·.1)
  let others ← plainColumns seen (← membersOf (← entryOf "Others" table))
  let fields := keys.map (·.2) ++ foreign.map (·.2) ++ others
  return "CREATE TABLE \x60" ++ name ++ "\x60 (" ++ ", ".intercalate fields ++ ");"

/-- The rows of a table of a database, after its header. -/
private def rowsOf (database : Value) (name : String) : Attempt (List Value) :=
  match database with
  | .object es =>
    match Value.lookup name es with
    | some (.list rows) => .ok (rows.drop 1)
    | some (.str s) => .ok ((s.toList.drop 1).map fun c ↦ .str c.toString)
    | some (.object _) => .error ⟨.wrongKind, "unhashable type: 'slice'"⟩
    | some v => .error ⟨.wrongKind, s!"'{Trouble.kindName v}' object is not subscriptable"⟩
    | none => .ok []
  | v => .error (.noField v "get")

private def lengthOf (v : Value) : Attempt Nat :=
  match v.count with
  | .ok n => .ok n
  | .error _ => .error ⟨.wrongKind, s!"object of type '{Trouble.kindName v}' has no len()"⟩

private def fill (schema database table : Value) : Dialogue Unit := do
  let name ← attempt (do lowerOf (← entryOf "TableName" table))
  let statement ← attempt (createStatement schema table name)
  execute statement
  let rows ← attempt (rowsOf database name)
  match rows with
  | [] => return
  | row :: _ =>
    let cells ← attempt (rows.mapM membersOf)
    let width ← attempt (lengthOf row)
    let places := ", ".intercalate (List.replicate width "%s")
    executeMany ("INSERT INTO \x60" ++ name ++ "\x60 VALUES (" ++ places ++ ");") cells

private def fillAll (schema database : Value) : List Value → Dialogue Unit
  | [] => return
  | table :: tables => do
    fill schema database table
    fillAll schema database tables

/-- Whether a database satisfies the constraints; no list of constraints is satisfied. -/
def checkIntegrity (i : Int) (constraints : Value) : Session Bool := do
  enter i
  match constraints with
  | .null => return true
  | _ => do
    let cs ← onServer (attempt (membersOf constraints))
    onServer (satisfiesAll cs)

/-- Creates a database with the given rows. One that violates the constraints is reported and kept. -/
def create (database constraints : Value) (i : Int) : Session Unit := do
  drop i
  let name ← databaseName i
  onServer (execute ("CREATE DATABASE " ++ name))
  onServer (execute ("USE " ++ name))
  let schema := (← get).schema
  let tables ← onServer (attempt (membersOf schema))
  onServer (fillAll schema database tables)
  unless ← checkIntegrity i constraints do
    onServer (note .critical s!"check DB integrity: {database.text} (IC: {constraints.text})")
  enqueue (0, i)

/-- Creates a list of databases; one that cannot be created is reported and left out. -/
def createAll (databases : List Value) (constraints : Value) : Session Unit :=
  create' 0 databases
where
  create' (i : Int) : List Value → Session Unit
    | [] => return
    | database :: rest => do
      tryCatch (create database constraints i) fun e ↦
        onServer (note .critical s!"Error when creating database: {database.text}, error: {e.text}")
      create' (i + 1) rest

/-! ## Running queries -/

/-- Takes databases out of the queue until `step` stops or none is left; `fuel` is at least their
number. -/
def drain {σ : Type} (step : σ → Int × Int → Session (Sum σ σ)) : Nat → σ → Session σ
  | 0, s => return s
  | fuel + 1, s => do
    match ← next? with
    | none => return s
    | some e =>
      match ← step s e with
      | .inl s => drain step fuel s
      | .inr s => return s

def requeue (es : List (Int × Int)) : Session Unit := es.forM enqueue

def rows : Session (List (List Value)) := do return (← get).server.rows

/-- Runs the reference query on one database. -/
def visitReference (query : String) (seen : Option (List (Int × Int))) (e : Int × Int) :
    Session (Sum (Option (List (Int × Int))) (Option (List (Int × Int)))) := do
  enter e.2
  let accepted ← tryCatch (do onServer (execute query); return true) fun t ↦
    match t.cause with
    | .refused => do onServer (note .critical t.text); return false
    | _ => throw t
  if accepted then
    let result ← rows
    modify fun t ↦ { t with reference := (t.reference.filter (·.1 != e.2)) ++ [(e.2, result)] }
    return .inl (seen.map (· ++ [e]))
  else return .inr none

/-- Runs the reference query everywhere. `none` if the server refuses it; the databases visited so far
are then lost. -/
def runReference (query : String) : Session (Option (List (Int × Int))) := do
  drain (visitReference query) (← get).databases.length (some [])

/-- Runs a query on one database. `true` if its result differs from the reference. -/
def differs (reference query : String) (ordered : Bool) (i : Int) : Session Bool :=
  tryCatch (do
    onServer (execute query)
    let result ← rows
    let expected ← match (← get).reference.find? (·.1 == i) with
      | some (_, r) => pure r
      | none => throw (Trouble.noKey (.int i))
    if ← onServer (attempt (sameResults ordered expected result)) then do
      onServer (note .warning reference)
      onServer (note .warning query)
      onServer (note .warning s!"{resultText expected}, {resultText result}")
      return false
    else do
      onServer (note .info s!"Q1: {resultText expected}")
      onServer (note .info s!"Q2: {resultText result}")
      return true) fun t ↦ do
    onServer (note .error s!"{query}, {t.text}")
    return false

/-- Runs a query on one database, and stops if its result differs. This database comes earlier from then on. -/
def visitQuery (reference query : String) (ordered : Bool) (found : Bool × List (Int × Int)) (e : Int × Int) :
    Session (Sum (Bool × List (Int × Int)) (Bool × List (Int × Int))) := do
  enter e.2
  if ← differs reference query ordered e.2 then
    let rest := inOrder (← get).databases
    modify fun t ↦ { t with databases := [] }
    return .inr (true, found.2 ++ [(e.1 - 1, e.2)] ++ rest)
  else return .inl (false, found.2 ++ [e])

/-- Whether some database tells a query from the reference. The order of rows counts if the reference
sorts them. -/
def tellsApart (reference query : String) : Session Bool := do
  match ← runReference reference with
  | none => return false
  | some seen => do
    requeue seen
    let ordered := Text.occursIn "ORDER BY" (Text.upper reference)
    let (rejected, seen) ← drain (visitQuery reference query ordered) seen.length (false, [])
    requeue seen
    return rejected

/-- The result of a query on a database, or that it could not be run. -/
inductive Class where
  | result (rows : List (List Value))
  | notExecutable

private def Class.same : Class → Class → Bool
  | result r, result s => r.length == s.length && (r.zip s).all fun (a, b) ↦ Value.sameList a b
  | notExecutable, notExecutable => true
  | _, _ => false

def countClass (c : Class) : List (Class × Nat) → List (Class × Nat)
  | [] => [(c, 1)]
  | (d, n) :: rest => if d.same c then (d, n + 1) :: rest else (d, n) :: countClass c rest

def classify (counts : List (Class × Nat)) : List String → Session (List (Class × Nat))
  | [] => return counts
  | query :: queries => do
    let ran ← tryCatch (do onServer (execute query); return true) fun _ ↦ return false
    if ran then
      let result ← rows
      match result.flatten.find? (!·.isKey) with
      | some v => throw ⟨.wrongKind, s!"unhashable type: '{Trouble.kindName v}'"⟩
      | none => classify (countClass (.result result) counts) queries
    else classify (countClass .notExecutable counts) queries

/-- Runs all queries on one database, which has no rank any more afterwards. -/
def visitAll (queries : List String) (found : List (Class × Nat) × List (Int × Int)) (e : Int × Int) :
    Session (Sum (List (Class × Nat) × List (Int × Int)) (List (Class × Nat) × List (Int × Int))) := do
  enter e.2
  let counts ← classify found.1 queries
  return .inl (counts, found.2 ++ [(0, e.2)])

/-- How often each result arises when all queries are run on all databases. -/
def classes (queries : List String) : Session (List (Class × Nat)) := do
  let (counts, seen) ← drain (visitAll queries) (← get).databases.length ([], [])
  requeue seen
  return counts

/-! ## Opening and closing -/

/-- A connected testbed: group columns need not be functionally dependent on their server. -/
def connect (schema : Value) (stem : String) (server : Server) : Session Unit := do
  set ({ schema, stem, server } : Testbed)
  onServer (execute "SET GLOBAL sql_mode=(SELECT REPLACE(@@sql_mode,'ONLY_FULL_GROUP_BY',''));")

/-- Drops all databases and closes the connection. -/
def close : Session Unit := do
  let count := (← get).databases.length
  let _ ← drain (fun _ e ↦ do
    drop e.2
    return .inl ()) count ()
  onServer (modify fun s ↦ (s.send .close).send .close)

end Testbed

end QueryEquiv
