import QueryEquiv.Workspace

/-!
# Further tables

Tables that no clause of a query asks for: a table without content of a given shape, and a table that
takes over the groups of another.
-/

namespace QueryEquiv.Workspace

/-- The numbers below a value that has to be a whole number. -/
private def countOf : Value → Outcome Nat
  | .int n => .ok n.toNat
  | .bool b => .ok (if b then 1 else 0)
  | _ => .error .wrongKind

/-- A table of a shape, which is not in the database yet. -/
def emptyTable (rows columns : Value) : Encoding Nat := do
  let id ← newTableId
  let name : Value := .str s!"empty_table_{rows.text}x{columns.text}"
  let columns ← (List.range (← countOf columns)).mapM fun (c : Nat) ↦
    Column.make c (.str (toString c)) (.str "int") name .null
  enter { id, name, columns, bound := rows }

private def largest : List Value → Outcome Value
  | [] => .error .badValue
  | v :: vs => vs.foldlM (fun m x ↦ do if ← x.compare .gt m then return x else return m) v

/-- A table takes over the groups of another, and with them its lineage. -/
def copyGrouping (source target : Nat) : Encoding Unit := do
  let s ← table source
  let t ← table target
  let groups ← countOf (← largest (← s.groups.members))
  for group in List.range groups do
    let members ← match s.ancestors with
      | .one p :: _ => table p
      | .several _ :: _ => throw .absentField
      | [] => throw .outOfRange
    for row in List.range (← members.rows) do
      append (.eq (.grouping t.id row group) (.grouping s.id row group)) (some "misc")
  append (.eq (.size t.id) (.size s.id)) (some "misc")
  changeTable target ({ · with groups := s.groups, lineage := s.lineage })

end QueryEquiv.Workspace
