import QueryEquiv.Value

/-!
# The report on a search

What is counted while a search goes on, and how it ended. A figure that was not reached is missing.
-/

namespace QueryEquiv.Search

/-- How a comparison of queries ended: no difference within the bounds, a difference, a failure, or no
end within the time. -/
inductive Status where
  | equivalent
  | different
  | failed
  | timeout
  deriving DecidableEq, Repr

def Status.code : Status → String
  | equivalent => "EQU"
  | different => "NEQ"
  | failed => "ERR"
  | timeout => "TMO"

structure Report where
  rounds : Option Nat := none
  backtracks : Option Nat := none
  /-- The backtracks where the goal itself was among the contradicting assertions. -/
  goalBacktracks : Option Nat := none
  /-- At each backtrack, the number of contradicting clauses and of the clauses considered. -/
  coreSizes : Option (List Nat) := none
  consideredSizes : Option (List Nat) := none
  /-- The number of rounds that had a model. -/
  solved : Option Nat := none
  /-- At each backtrack, the number of clauses whose decisions changed. -/
  changes : Option (List Nat) := none
  clauses : Option Nat := none
  /-- Whether the search came to an end. -/
  completed : Bool := false
  status : Option Status := none
  /-- The rows of each table of a database on which the queries differ. -/
  database : Option (List (String × Value)) := none
  /-- Whether going back was enough to mend the decisions. -/
  mended : Option Value := none

namespace Report

private def number (n : Nat) : Value := .int n

private def numbers (ns : List Nat) : Value := .list (ns.map number)

private def figure {α : Type} (key : String) (encode : α → Value) (x : Option α) : List (String × Value) :=
  match x with
  | some a => [(key, encode a)]
  | none => []

/-- The figures up to the end of the search. The times of the solved rounds are given by `times`. -/
private def figures (times : Nat → Value) (r : Report) : List (String × Value) :=
  figure "iters" number r.rounds ++ figure "backtracks" number r.backtracks ++
  figure "type_2_backtracks" number r.goalBacktracks ++ figure "unsat_core_sizes" numbers r.coreSizes ++
  figure "M_sizes" numbers r.consideredSizes ++ figure "solving_time_per_iter" times r.solved ++
  figure "num_nodes_changed" numbers r.changes ++ figure "ast_size" number r.clauses

private def outcome (r : Report) : List (String × Value) :=
  figure "status" (fun s ↦ .str s.code) r.status ++ figure "cex" Value.object r.database ++
  figure "found" id r.mended

/-- The figures of the report, without the times. -/
def entries (r : Report) : List (String × Value) := r.figures number ++ r.outcome

/-- The report as a text, when the clock stands still at the beginning of the year 2000. -/
def text (r : Report) : String :=
  let entry : String × Value → String := fun (k, v) ↦ (Value.str k).repr ++ ": " ++ v.repr
  let times := if r.completed then
      ["'complete_time': datetime.datetime(2000, 1, 1, 0, 0)", "'total_time': 0.0"]
    else []
  let solved (n : Nat) : Value := .list (List.replicate n (.float 0))
  "\x7b" ++ ", ".intercalate ((r.figures solved).map entry ++ times ++ r.outcome.map entry) ++ "\x7d"

end Report

end QueryEquiv.Search
