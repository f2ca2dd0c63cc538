import QueryEquiv.Solver

/-!
# Reading a model

The choices and the rows of a table in the model that a solver found. Cells are numbers to the solver;
the type of a column says what they stand for.
-/

namespace QueryEquiv.Search

open Inquiry

/-- The number of choices for a table: two for each group of a grouped table. -/
def choiceCount (t : Table) : Outcome Nat := do
  let n ← if t.mentionsIfAny "Grouped" then t.bound.arith .mul (.int 2) else pure t.bound
  match n with
  | .int n => return n.toNat
  | .bool b => return if b then 1 else 0
  | _ => .error .wrongKind

/-- A choice as the solver says it; what is no number is left open. -/
def bitOf (s : String) : Bit :=
  match Text.readInt? s with
  | some n => .fixed (.int n)
  | none => .free

def choicesOf (p : Prover) (t : Table) : Inquiry Choices := do
  (List.range (← choiceCount t)).mapM fun (bit : Nat) ↦ do return bitOf (← value p "choice" [t.id, bit])

/-- The seconds from the first moment that a calendar has to the beginning of 1900. -/
def secondsBefore1900 : Int := ((⟨1900, 1, 1⟩ : Date).ordinal - 1) * 86400

/-- The seconds from the beginning of 1900 to the end of the calendar. -/
def secondsSince1900 : Int := ((Date.last.ordinal : Int) - (⟨1900, 1, 1⟩ : Date).ordinal + 1) * 86400

/-- A number of seconds as a time of day. Numbers that lead out of the calendar are the last or the first
second of the day. -/
def timeOfSeconds (n : Int) : TimeOfDay :=
  if -secondsBefore1900 ≤ n && n < secondsSince1900 then TimeOfDay.ofSeconds (n.emod 86400)
  else if n > 0 then ⟨23, 59, 59⟩
  else ⟨0, 0, 0⟩

def typeOf (c : Column) : Outcome String :=
  match c.type with
  | .null => .ok "int"
  | t => do
    let t ← lowered t
    return if Text.occursIn "char" t then "varchar" else t

/-- What a number stands for in a column of a type. -/
def decode (codes : Codes) (type : String) (n : Int) : Value :=
  match type with
  | "varchar" | "text" => .str (codes.decode n)
  | "date" => .str (Date.ofDays n).text
  | "time" => .str (timeOfSeconds n).text
  | "bool" => .bool (n != 0)
  | _ => .int n

def cellOf (p : Prover) (t : Int) (row : Nat) (c : Column) : Inquiry Value := do
  if (← value p "null" [t, row, c.id]) == "true" then return .null
  else
    match Text.readInt? (← value p "cell" [t, row, c.id]) with
    | none => throw .badValue
    | some n => do
      let type ← typeOf c
      return decode (← workspace).codes type n

/-- The rows of a table that are there, after the names of its columns. -/
def rowsOf (p : Prover) (t : Table) : Inquiry (List Value) := do
  let w ← workspace
  let known := w.catalog.table (← encoding (Workspace.placeOf t.id))
  let rows ← (List.range (← t.rows)).mapM fun (row : Nat) ↦ do
    if (← value p "deleted" [t.id, row]) == "true" then return []
    else return [Value.list (← known.columns.mapM (cellOf p t.id row))]
  return .list (known.columns.map (·.name)) :: rows.flatten

end QueryEquiv.Search
