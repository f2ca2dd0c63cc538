import QueryEquiv.Term.Reading
import QueryEquiv.Workspace

/-!
# Pattern matching on texts

Texts are known to a solver only by their codes, so a match is narrowed down to a few texts made
from the pattern: the pattern with a digit before it, with a digit after it, with a digit for every
wildcard, and the empty text. For each of them it is known whether it matches. That one of them is
meant is noted as an approximation.
-/

namespace QueryEquiv.Like

/-- Every wildcard of a pattern replaced by a text. -/
def fill (pattern by' : String) : String := Text.replace pattern "%" by'

def holds (cell : Reading) (s : String) : Encoding Term := do
  let code ← Workspace.code (.str s)
  Term.compare .eq cell.1 (.ofInt code)

def narrow (cases : List Term) : Encoding Unit :=
  modify fun w ↦ { w with approximations := w.approximations ++ [.or cases] }

def startsOpen (pattern : String) : Bool := pattern.toList.head? == some '%'

def endsOpen (pattern : String) : Bool := pattern.toList.getLast? == some '%'

/-- The texts that differ from the pattern at an end that is not a wildcard. -/
def misses (cell : Reading) (pattern : String) : Encoding (List Term) := do
  let before ← if startsOpen pattern then pure [] else do pure [← holds cell ("1" ++ fill pattern "")]
  let after ← if endsOpen pattern then pure [] else do pure [← holds cell (fill pattern "" ++ "1")]
  return before ++ after

/-- Whether a cell matches a pattern. -/
def like (cell : Reading) (pattern : String) : Encoding Reading := do
  let no ← misses cell pattern
  let exact' ← if Text.occursIn "%" pattern then pure [] else do pure [← holds cell pattern]
  let yes := exact' ++ [← holds cell (fill pattern "1")]
  narrow (no ++ yes)
  return (.or yes, cell.2)

/-- Whether a cell does not match a pattern. -/
def notLike (cell : Reading) (pattern : String) : Encoding Reading := do
  let no ← misses cell pattern
  let yes ← holds cell (fill pattern "1")
  let empty ← if pattern.isEmpty then pure [] else do pure [← holds cell ""]
  narrow (no ++ [yes] ++ empty)
  return (.or (no ++ empty), cell.2)

/-- Matching by name of the operator; the pattern has to be a text. -/
def encode (operator : String) (cell : Reading) (pattern : Value) : Encoding Reading :=
  match operator, pattern with
  | "like", .str p => like cell p
  | "not_like", .str p => notLike cell p
  | "like", _ | "not_like", _ => throw .absentField
  | _, _ =>
    match cell with
    | (.plain v, .plain n) =>
      throw (.unsupported (some s!"{operator}(({Value.tupleText [v, n]}, {pattern.repr}))"))
    | _ => throw (.unsupported none)

end QueryEquiv.Like
