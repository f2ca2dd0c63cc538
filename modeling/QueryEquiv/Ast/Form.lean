import QueryEquiv.Ast.OfTree
import QueryEquiv.Term.Form

/-!
# Syntax trees written as lists

A node can be given as a list that starts with a name: of a kind of node, with its parts after it. Parts
that are left out have their usual values. Whatever is no such list is a missing node.
-/

namespace QueryEquiv.Node

private def listOf : Value → List Value
  | .list xs => xs
  | _ => []

private def entryOf (v : Value) (key : String) : Value := (v.get? key).getD .null

/-- The node that a list stands for, read down to a depth. -/
private def readForm : Nat → Value → Outcome Node
  | 0, _ => .ok missing
  | depth + 1, .list (.str form :: args) => do
    let arg (i : Nat) : Value := (args[i]?).getD .null
    let plain (i : Nat) : Value := Json.unmark (arg i)
    let sub (i : Nat) : Outcome Node := readForm depth (arg i)
    let nodes (v : Value) : Outcome (List Node) := (listOf v).mapM (readForm depth)
    let flag (i : Nat) (usual : Bool) : Value := if i < args.length then arg i else .bool usual
    match form with
    | "attr" => return column (plain 0) (plain 1)
    | "lit" => return literal (plain 0) (plain 1)
    | "expr" => apply (arg 0) (← nodes (arg 1)) (arg 2)
    | "case" => do
      let cases ← (listOf (arg 0)).mapM fun c ↦ do
        let xs ← nodes c
        return (xs.getD 0 missing, xs.getD 1 missing)
      return caseWhen cases (← sub 1) (arg 2)
    | "if" => return ifThen (← sub 0) (← sub 1) (← sub 2) .null
    | "filtered" => do
      let _ ← sub 0
      let _ ← sub 1
      .error .wrongKind
    | "fn" => return function (arg 0)
    | "op" => return operator (arg 0)
    | "list" => return list (← nodes (arg 0))
    | "raw" => return raw (plain 0)
    | "query" => ofQueryTree (plain 0)
    | "parse" => ofExpressionTree (plain 0)
    | "filter" => return filter 0 (← sub 0)
    | "group_by" => return groupBy 0 (← nodes (arg 0)) (← sub 1)
    | "project" => return project 0 (← nodes (arg 0)) (flag 1 false)
    | "scan" => return scan (arg 0) (arg 1)
    | "order_by" => do
      let keys := match ← sub 0 with
        | list ks => ks
        | k => [k]
      let orders := match arg 1 with
        | .list os => os
        | o => [o]
      return orderBy 0 keys orders (arg 2)
    | "join" => return join 0 (← sub 0) (← sub 1) (arg 2) (← sub 3) (← sub 4)
    | "select" => do
      let part (key : String) : Outcome Node := readForm depth (entryOf (arg 0) key)
      let withs ← match entryOf (arg 0) "cte" with
        | .object es => do
          pure (some (← es.mapM fun (k, v) ↦ do return (Value.str k, ← readForm depth v)))
        | _ => pure none
      return query 0 withs (← part "select_clause") (← part "from_clause") (← part "where_clause")
        (← part "group_by_clause") (← part "order_by_clause") (entryOf (arg 0) "alias")
    | "union" => return union 0 (← nodes (arg 0)) (flag 1 false) (arg 2)
    | "mutated" => return mutated (← sub 0) (← sub 1) (arg 2) (flag 3 true)
    | _ => .error .absentKey
  | _, _ => .ok missing

/-- The node that a list stands for. -/
def ofForm (v : Value) : Outcome Node := readForm (v.depth + 1) v

/-- An operator applied to a list of terms. A conjunction and a disjunction take one; negation takes
nothing to be its operand, and the others refuse it. -/
def call (name : String) (args : List Term) : Outcome Term :=
  match name with
  | "and" => .ok (.and args)
  | "or" => .ok (.or args)
  | "not" => .ok (.not (.plain (.list [])))
  | _ => if isOperatorName name then .error .wrongKind else .error .absentKey

end QueryEquiv.Node
