import QueryEquiv.Term.Sort
import QueryEquiv.Value.Json

/-!
# Terms written as lists

A term can be given as a list that starts with a name: of a constructor, such as `cell` or `and`, or of an
operation on terms that checks its operands. Whatever is no such list stands for itself.
-/

namespace QueryEquiv.Term

/-- A number in a list; anything else counts as zero. -/
private def numberAt (args : List Value) (i : Nat) : Int := ((args[i]?).bind Value.integer?).getD 0

/-- The constructors that only have numbers or values. -/
private def leaf? (name : String) (args : List Value) : Option Term :=
  let n := numberAt args
  let v := Json.unmark ((args[0]?).getD .null)
  match name with
  | "cell" => some (.cell (n 0) (n 1) (n 2))
  | "null" => some (.null (n 0) (n 1) (n 2))
  | "grouping" => some (.grouping (n 0) (n 1) (n 2))
  | "deleted" => some (.deleted (n 0) (n 1))
  | "belongs" => some (.belongs (n 0) (n 1))
  | "size" => some (.size (n 0))
  | "choice" => some (.choice (n 0) (n 1))
  | "int" => some (.int v)
  | "bool" => some (.bool v)
  | _ => none

private def comparisonNamed : String → Option Comparison
  | "gte" => some .ge
  | "gt" => some .gt
  | "lte" => some .le
  | "lt" => some .lt
  | "eq" => some .eq
  | "neq" => some .ne
  | _ => none

private def comparisonSigned : String → Option Comparison
  | "o<" => some .lt
  | "o<=" => some .le
  | "o>" => some .gt
  | "o>=" => some .ge
  | "o==" => some .eq
  | "o!=" => some .ne
  | _ => none

private def arithNamed : String → Option Arith
  | "plus" => some .add
  | "minus" => some .sub
  | "mul" => some .mul
  | "div" => some .div
  | _ => none

private def arithSigned : String → Option Arith
  | "o+" => some .add
  | "o-" => some .sub
  | "o*" => some .mul
  | "o/" => some .div
  | _ => none

/-- The constructors and operations on terms. -/
private def compound (name : String) (args : List (Outcome Term)) : Outcome Term := do
  let arg (i : Nat) : Outcome Term := (args[i]?).getD (.ok (.plain .null))
  let all : Outcome (List Term) := args.mapM id
  match name with
  | "and" => return .and (← all)
  | "or" => return .or (← all)
  | "sum" => total (← all)
  | "xor" => return .xor (← arg 0) (← arg 1)
  | "not" => return .not (← arg 0)
  | "implies" => return .implies (← arg 0) (← arg 1)
  | "if" => return .ite (← arg 0) (← arg 1) (← arg 2)
  | "neg" => return .neg (← arg 0)
  | "ensure_int" => (← arg 0).ensureNumber
  | "ensure_bool" => (← arg 0).ensureTruth
  | "abs" => (← arg 0).abs
  | "oneg" => (← arg 0).negate
  | _ =>
    match comparisonNamed name, comparisonSigned name, arithNamed name, arithSigned name with
    | some op, _, _, _ => comparison op (← arg 0) (← arg 1)
    | _, some op, _, _ => compare op (← arg 0) (← arg 1)
    | _, _, some op, _ => return .arith op (← arg 0) (← arg 1)
    | _, _, _, some op => compute op (← arg 0) (← arg 1)
    | _, _, _, _ => .error .absentKey

mutual

/-- The term that a list stands for. -/
def ofForm : Value → Outcome Term
  | .list (.str name :: args) =>
    match leaf? name args with
    | some t => .ok t
    | none => compound name (ofForms args)
  | v => .ok (.plain (Json.unmark v))

def ofForms : List Value → List (Outcome Term)
  | [] => []
  | v :: vs => ofForm v :: ofForms vs

end

end QueryEquiv.Term
