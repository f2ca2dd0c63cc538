import QueryEquiv.Term.Infix

/-!
# Rows from named values

A model may also be given by the values of terms, each under the text of its term. The rows of a table are
then read off its size and its cells.
-/

namespace QueryEquiv.Search

/-- The values of terms, by their texts. -/
abbrev Valuation := List (String × Value)

namespace Valuation

private def value (values : Valuation) (name : String) (ids : List Int) : Outcome Value :=
  match values.lookup (Term.Infix.application name ids) with
  | some v => .ok v
  | none => .error .absentKey

/-- The names of the columns of a table, and its rows. -/
def rows (values : Valuation) (table : Int) (columns : List Value) : Outcome (List Value) := do
  let size ← values.value "size" [table]
  match size.integer? with
  | none => .error .wrongKind
  | some n => do
    let rows ← (List.range n.toNat).mapM fun (row : Nat) ↦ do
      let cells ← (List.range columns.length).mapM fun (column : Nat) ↦ do
        if (← values.value "null" [table, row, column]).truthy then return Value.null
        else values.value "cell" [table, row, column]
      return Value.list cells
    return .list columns :: rows

end Valuation

end QueryEquiv.Search
