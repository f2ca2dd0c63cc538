import QueryEquiv.Log
import QueryEquiv.Value.Access
import QueryEquiv.Text.Case

/-!
# A database server under test

The conversation with a database server: the statements sent to it, and the result that it holds.
What the server replies to a statement is given; a statement without a reply has an empty result,
and one that fails leaves the earlier result in place.

A failure carries the text in which it is reported.
-/

namespace QueryEquiv.Testbed

/-- A failure with its text. -/
structure Trouble where
  cause : Fault
  text : String

/-- What the server does with a statement. -/
inductive Reply where
  | result (header : List Value) (rows : List (List Value))
  /-- The statement is faulty. -/
  | refused
  | failed

/-- What was sent to the server. -/
inductive Sent where
  | statement (sql : String)
  | batch (sql : String) (rows : List (List Value))
  | commit
  | close

structure Server where
  replies : List (String × Reply) := []
  header : List Value := []
  rows : List (List Value) := []
  sent : List Sent := []
  messages : List Message := []

namespace Trouble

def kindName : Value → String
  | .null => "NoneType"
  | .bool _ => "bool"
  | .int _ => "int"
  | .float _ => "float"
  | .str _ => "str"
  | .date _ => "datetime.date"
  | .time _ => "time.struct_time"
  | .list _ => "list"
  | .object _ => "dict"
  | .inline .. => "ValuesTable"

def noKey (key : Value) : Trouble := ⟨.absentKey, key.repr⟩

def noField (v : Value) (field : String) : Trouble :=
  ⟨.absentField, s!"'{kindName v}' object has no attribute '{field}'"⟩

def noIndex (v : Value) : Trouble :=
  ⟨.outOfRange, if v.isString then "string index out of range" else "list index out of range"⟩

/-- A value that is not looked up by the given kind of key. -/
def noLookup (v key : Value) : Trouble :=
  ⟨.wrongKind, match v with
    | .list _ => s!"list indices must be integers or slices, not {kindName key}"
    | .str _ => s!"string indices must be integers, not '{kindName key}'"
    | _ => s!"'{kindName v}' object is not subscriptable"⟩

def notListed (v : Value) : Trouble := ⟨.badValue, v.repr ++ " is not in list"⟩

def noMembers (v : Value) : Trouble := ⟨.wrongKind, s!"'{kindName v}' object is not iterable"⟩

def notOrdered (op : String) (a b : Value) : Trouble :=
  ⟨.wrongKind, s!"'{op}' not supported between instances of '{kindName a}' and '{kindName b}'"⟩

end Trouble

/-! ## Looking into values -/

abbrev Attempt := Except Trouble

def entryOf (key : String) (v : Value) : Attempt Value :=
  match v.entry key with
  | .ok x => .ok x
  | .error .absentKey => .error (.noKey (.str key))
  | .error _ => .error (.noLookup v (.str key))

def memberOf (i : Nat) (v : Value) : Attempt Value :=
  match v.member i with
  | .ok x => .ok x
  | .error .outOfRange => .error (.noIndex v)
  | .error .absentKey => .error (.noKey (.int i))
  | .error _ => .error (.noLookup v (.int i))

def membersOf (v : Value) : Attempt (List Value) :=
  match v.members with
  | .ok xs => .ok xs
  | .error _ => .error (.noMembers v)

def lowerOf : Value → Attempt String
  | .str s => .ok (Text.lower s)
  | v => .error (.noField v "lower")

/-- The pieces of a text between occurrences of a separator. -/
def piecesOf (separator : String) : Value → Attempt (List String)
  | .str s =>
    let (cuts, last) := (Text.Pattern.lit separator).cut s.toList
    .ok (cuts.map (fun (before, _) ↦ String.ofList before) ++ [String.ofList last])
  | v => .error (.noField v "split")

def pieceOf (separator : String) (i : Nat) (v : Value) : Attempt String := do
  match (← piecesOf separator v)[i]? with
  | some s => .ok s
  | none => .error (.noIndex (.list []))

/-! ## Statements -/

abbrev Dialogue := ExceptT Trouble (StateM Server)

def attempt {α : Type} (a : Attempt α) : Dialogue α := ExceptT.mk (pure a)

def Server.send (s : Server) (x : Sent) : Server := { s with sent := s.sent ++ [x] }

def execute (sql : String) : Dialogue Unit := do
  modify (·.send (.statement sql))
  let server ← get
  let reply : Option Reply := (server.replies.find? (·.1 == sql)).map (·.2)
  match reply with
  | some (.result header rows) => modify fun s ↦ { s with header, rows }
  | some .refused => throw ⟨.refused, "bad query"⟩
  | some .failed => throw ⟨.unanswered, "failed"⟩
  | none => modify fun s ↦ { s with header := [], rows := [] }

/-- Sends one statement for many rows and makes its effect lasting. -/
def executeMany (sql : String) (rows : List (List Value)) : Dialogue Unit :=
  modify fun s ↦ (s.send (.batch sql rows)).send .commit

def note (level : Level) (text : String) : Dialogue Unit :=
  modify fun s ↦ { s with messages := s.messages ++ [⟨level, text⟩] }

end QueryEquiv.Testbed
