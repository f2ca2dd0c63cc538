import QueryEquiv.Demonstration
import QueryEquiv.Term.Text

/-!
# Workloads

A workload is a fixed amount of work of adjustable size, by which the speed of the library is measured. It
has a set-up, which is done once, and a task, which can be done again and gives the same result every
time.
-/

namespace QueryEquiv

/-- What is done, by the size: the name of the size, its usual value and the values at which it is
measured, and the set-up, which gives the task. -/
structure Workload where
  parameter : String
  usual : Int
  sizes : List Int
  prepare : Int → Inquiry (Inquiry Value)

namespace Workload

open Inquiry

/-! ## Encoding queries -/

/-- A table with a key of one column. -/
def keyed (name key type : String) (others : List (String × String)) : Value :=
  let column : String × String → Value := fun (n, t) ↦ .object [("Name", .str n), ("Type", .str t)]
  .object [("TableName", .str name), ("PKeys", .list [column (key, type)]), ("FKeys", .list []),
    ("Others", .list (others.map column))]

/-- Employees and their departments. -/
def company : Value :=
  .list [keyed "Employees" "emp_id" "int"
      [("name", "varchar"), ("age", "int"), ("salary", "int"), ("dept_id", "int")],
    keyed "Departments" "dept_id" "int" [("dept_name", "varchar"), ("budget", "int")]]

def joinQueries : List String :=
  ["\n        SELECT e.emp_id, e.name, d.dept_name, d.budget\n        FROM Employees AS e\n" ++
    "             INNER JOIN Departments AS d ON e.dept_id = d.dept_id\n        WHERE d.budget > 100\n    ",
   "\n        SELECT e.emp_id, e.name, d.dept_name, d.budget\n        FROM Employees AS e\n" ++
    "             LEFT JOIN Departments AS d ON e.dept_id = d.dept_id\n        WHERE d.budget > 100\n    ",
   "\n        SELECT Employees.emp_id, Departments.dept_name\n" ++
    "        FROM Employees FULL JOIN Departments USING (dept_id)\n    ",
   "\n        SELECT Employees.emp_id, Departments.dept_name\n" ++
    "        FROM Employees RIGHT JOIN Departments ON Employees.dept_id = Departments.dept_id\n    ",
   "\n        SELECT * FROM Employees, Departments\n    "]

def readTrees (texts : List String) : Inquiry (List Value) :=
  texts.mapM fun q ↦ dialogue (QueryText.read q)

def encodeTrees (trees : List Value) : Inquiry (List Nat) := do
  let queries ← trees.mapM fun t ↦ liftM (Node.ofQueryTree t)
  queries.zipIdx.mapM fun (q, i) ↦ encoding do
    modify ({ · with currentQuery := .int i })
    Query.table (← Workspace.tagged q)

def scriptLength : Inquiry Value := do
  let labels := (← formulas).labels
  encoding (Workspace.changeFormulas ({ · with considered := .set labels }))
  return .int (← encoding Search.script).length

/-- Encodes a join of each kind. -/
def joins : Workload where
  parameter := "bound"
  usual := 3
  sizes := [2, 3, 4]
  prepare bound := do
    let trees ← readTrees joinQueries
    return do
      encoding (Workspace.start company [] (.int bound) (.int 60) .null)
      let limits : MatchingLimits := { rows := some (.int 2), matchings := some (.int 8) }
      encoding (modify ({ · with fullLimits := limits, rightLimits := limits }))
      let _ ← encodeTrees trees
      scriptLength

/-- Encodes a single expression at every row, after a first comparison of queries. A power of a column is not
supported. -/
def expressions : Workload where
  parameter := "bound"
  usual := 6
  sizes := [3, 6, 10]
  prepare bound := do
    Demonstration.compareAges
    return do
      encoding (Workspace.start company [] (.int bound) (.int 60) .null)
      let power ← encoding (Workspace.tagged
        (.expression (.str "power") [.column (.str "age") .null, .literal (.int 2) .null] .null))
      let rows ← (List.range bound.toNat).mapM fun (row : Nat) ↦ encoding do
        Expression.numberAtRow Query.subquery (← Workspace.findTable (.str "employees")) row none none
          (← Workspace.newReader) power
      return .list (rows.map fun (v, _) ↦ .str v.text)

end Workload

end QueryEquiv
