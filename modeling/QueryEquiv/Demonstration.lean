import QueryEquiv.Verdict

/-!
# Demonstrations

Small runs that show what the library does: a comparison of two queries, the reading of a query, the reading
of a file of constraints, a question to a solver, and the lines of log messages. What a run shows is
kept as lines.
-/

namespace QueryEquiv.Demonstration

open Inquiry

private def column (name type : String) : Value := .object [("Name", .str name), ("Type", .str type)]

/-! ## Two queries on employees -/

def employees : Value :=
  .list [.object [("TableName", .str "Employees"), ("PKeys", .list [column "emp_id" "int"]),
    ("FKeys", .list []), ("Others", .list [column "name" "varchar", column "age" "int"])]]

/-- No two employees have the same number. -/
def employeeConstraints : List Value :=
  [.object [("distinct", .list [.str "Employees.emp_id"])]]

/-- The employees above, or from, the age of thirty. -/
def employeeQuery (comparison : String) : String :=
  "\n        SELECT emp_id FROM Employees WHERE age " ++ comparison ++ " 30\n        "

/-- Shows a verdict: the report, and a word with the time taken. A database on which the queries differ is
noted. -/
def showVerdict (v : Verdict) : Inquiry Unit := do
  display v.report.text
  match v.equivalent with
  | none => display "ERR"
  | some true => display "EQ"
  | some false => do
    display "NEQ 0.0"
    note .info ((v.database.map Value.object).getD .null).text

/-- Compares a strict with a lax condition on the age, on two rows. -/
def compareAges : Inquiry Unit := do
  encoding (Workspace.start employees employeeConstraints (.int 2) (.int 60) .null)
  showVerdict (← Verdict.check {} (employeeQuery ">") (employeeQuery ">="))

/-! ## Single parts -/

/-- Reads a query and shows its tree and both texts of its syntax. -/
def readSales : Inquiry Unit := do
  let tree ← dialogue (QueryText.read "SELECT BUYER_ID FROM SALES ORDER BY a, B DESC LIMIT 1")
  display tree.text
  let query ← liftM (Node.ofQueryTree tree)
  display (← liftM query.repr)
  display (← liftM query.text)

/-- A file that is not there holds no constraints. -/
def readMissingConstraints : Inquiry Unit := display (Value.list []).text

/-- Asks a solver for a value that is not null. -/
def askSolver : Inquiry Unit := do
  let wanted : Term := .and [.cmp .eq (.null 2 1 1) .top, .cmp .eq (.cell 2 1 1) (.ofInt 1234)]
  let script ← liftM wanted.script
  let (sat, prover) ← check { options := ["--in", "-T:5"] } ("(assert " ++ script.text ++ ")") [("", wanted)]
  if sat then
    display (← value prover "null" [2, 1, 1])
    display (← value prover "cell" [2, 1, 1])
  else display "unsat"

def levelMessages : List Message :=
  [⟨.debug, "Debug message"⟩, ⟨.info, "Info message"⟩, ⟨.warning, "Warning message"⟩, ⟨.error, "Error message"⟩,
    ⟨.critical, "Critical message"⟩]

def showLevels : Inquiry Unit := levelMessages.forM fun m ↦ display (m.line (.ofSeconds 0))

end QueryEquiv.Demonstration
