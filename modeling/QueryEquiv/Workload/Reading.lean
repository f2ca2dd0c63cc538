import QueryEquiv.Ast.Text
import QueryEquiv.Workload

/-!
# Reading many queries

Query texts of all kinds are read once, and the syntax of their trees is built and written again and
again.
-/

namespace QueryEquiv.Workload

open Inquiry

/-- The texts that are used over and over. -/
def sampleQueries : List String :=
  ["SELECT a, b AS x, COUNT(*) AS c FROM t GROUP BY a HAVING COUNT(*) > 1 ORDER BY a DESC LIMIT 5",
   "SELECT DISTINCT a FROM t WHERE a > 1 AND b < 2 OR c = 3",
   "SELECT * FROM t1 INNER JOIN t2 ON t1.a = t2.a LEFT JOIN t3 ON t2.b = t3.b",
   "SELECT a FROM t WHERE a IN ('x', 'y', 'z') AND b NOT IN (SELECT x FROM u)",
   "SELECT a FROM t WHERE (a, b) IN (SELECT x, y FROM u) AND (a, b) NOT IN (SELECT x, y FROM u)",
   "WITH c AS (SELECT a FROM t) SELECT * FROM c",
   "SELECT a FROM t UNION SELECT b FROM u UNION ALL SELECT c FROM v",
   "SELECT CASE WHEN a > 1 THEN 'x' WHEN a > 0 THEN b ELSE 0 END FROM t",
   "SELECT CAST(a AS date), '2020-01-02', '12:00:00' FROM t",
   "SELECT a + b + c, a - b, a * b, a / b, -a FROM t",
   "SELECT t.a FROM (SELECT a FROM u WHERE a <> NULL) AS t",
   "SELECT a FROM t ORDER BY a LIMIT 1, 10",
   "SELECT a FROM (t)",
   "SELECT a FROM t WHERE a = NULL OR b <> NULL",
   "SELECT 1 AS x, true, a FROM t GROUP BY 1, f(a) ORDER BY 1, f(a)",
   "SELECT IF(a > 0, 1, 0), COUNT(a) FILTER (WHERE a > 0) FROM t",
   "SELECT a FROM t HAVING a > 0",
   "SELECT a FROM t WHERE a > 0 HAVING b > 0"]

/-- Texts that are only read: a precision, and tables that are written out. -/
def specialQueries : List String :=
  ["SELECT a FROM t WHERE TIMESTAMP(3) > 0", "SELECT * FROM (VALUES (1, 2), (3, 4)) AS v(x, y)",
   "SELECT * FROM (VALUES (1)) AS v"]

/-- A text that cannot be read. -/
def brokenQuery : String := "SELECT FROM WHERE"

/-- A text with tables at several places. -/
def nestedQuery : String :=
  "SELECT a FROM t1 INNER JOIN t2 ON t1.a=t2.a LEFT JOIN (SELECT * FROM t3) AS s ON 1=1"

private def bothTexts (tree : Value) : Inquiry (List Value) := do
  let query ← liftM (Node.ofQueryTree tree)
  let text ← liftM query.text
  let repr ← liftM query.repr
  return [.str text, .str repr]

/-- Builds and writes queries from their trees, and lists the tables of one. -/
def readings : Workload where
  parameter := "n_queries"
  usual := 300
  sizes := [60, 300, 1200]
  prepare count := do
    let trees ← readTrees sampleQueries
    let _ ← readTrees specialQueries
    tryCatch (discard <| readTrees [brokenQuery]) fun _ ↦ return
    let nested ← readTrees [nestedQuery]
    return do
      let texts ← (List.range count.toNat).mapM fun (i : Nat) ↦
        match trees[i % trees.length]? with
        | some tree => bothTexts tree
        | none => throw .outOfRange
      let tables ← nested.mapM fun tree ↦ liftM (Node.tablesOf tree)
      return .list (texts.flatten ++ tables.flatten ++ [.str QueryText.readerName, .str QueryText.readerName])

end QueryEquiv.Workload
