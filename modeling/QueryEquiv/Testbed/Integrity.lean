import QueryEquiv.Testbed.Server
import QueryEquiv.Value.Arithmetic

/-!
# Checking constraints on a server

Whether the rows that a server holds satisfy a list of constraints. Columns are found by name in the
header of a result; unknown kinds of constraints are not checked.
-/

namespace QueryEquiv.Testbed

private def columnAt (header : List Value) (column : Value) : Attempt Nat :=
  match header.findIdx? (·.same column) with
  | some i => .ok i
  | none => .error (.notListed column)

private def cellAt (row : List Value) (i : Nat) : Attempt Value :=
  match row[i]? with
  | some v => .ok v
  | none => .error ⟨.outOfRange, "tuple index out of range"⟩

/-- The rows of a table, and the names of its columns in lower case. -/
private def readTable (table : String) : Dialogue (List Value × List (List Value)) := do
  execute s!"SELECT * FROM {table}"
  let header ← attempt ((← get).header.mapM fun h ↦ do return .str (← lowerOf h))
  return (header, (← get).rows)

/-- The cells of a column, named without regard to case. -/
private def readColumn (table column : String) : Dialogue (List Value) := do
  let (header, rows) ← readTable table
  let i ← attempt (columnAt header (.str (Text.lower column)))
  attempt (rows.mapM (cellAt · i))

/-- Whether all rows pass at a place, asked one after the other until one does not. -/
private def allPass (test : Value → Attempt Bool) (i : Nat) : List (List Value) → Attempt Bool
  | [] => .ok true
  | row :: rows => do if ← test (← cellAt row i) then allPass test i rows else return false

/-- Whether all cells of a column pass; a row that is too short matters only if it is reached. -/
private def checkColumn (table column : String) (test : Value → Attempt Bool) : Dialogue Bool := do
  let (header, rows) ← readTable table
  let i ← attempt (columnAt header (.str (Text.lower column)))
  attempt (allPass test i rows)

private def splitName (v : Value) : Attempt (String × String) := do
  return (← pieceOf "." 0 v, ← pieceOf "." 1 v)

/-- Whether no two rows agree; where nulls are not allowed, also that no row has one. -/
private def keysDistinct (allowNull : Bool) : List (List Value) → List (List Value) → Bool
  | _, [] => true
  | seen, row :: rows =>
    if seen.any (Value.sameList row) || (!allowNull && row.any (·.same .null)) then false
    else keysDistinct allowNull (seen ++ [row]) rows

private def checkKey (allowNull : Bool) (columns : Value) : Dialogue Bool := do
  let columns := match columns with
    | .list cs => cs
    | c => [c]
  let table ← attempt (do pieceOf "." 0 (← memberOf 0 (.list columns)))
  let columns ← attempt (columns.mapM (pieceOf "." 1))
  let (header, rows) ← readTable table
  let places ← attempt (columns.mapM fun c ↦ columnAt header (.str (Text.lower c)))
  checkRows [] places rows
where
  checkRows (seen : List (List Value)) (places : List Nat) : List (List Value) → Dialogue Bool
    | [] => return true
    | row :: rows => do
      let key ← attempt (places.mapM (cellAt row))
      if keysDistinct allowNull seen [key] then checkRows (seen ++ [key]) places rows else return false

private def comparison? : String → Option Comparison
  | "gt" => some .gt
  | "gte" => some .ge
  | "lt" => some .lt
  | "lte" => some .le
  | "neq" => some .ne
  | "eq" => some .eq
  | _ => none

private def symbol : Comparison → String
  | .gt => ">"
  | .ge => ">="
  | .lt => "<"
  | .le => "<="
  | .ne => "!="
  | .eq => "=="

private def compareCells (op : Comparison) (a b : Value) : Attempt Bool :=
  match a.compare op b with
  | .ok r => .ok r
  | .error _ => .error (.notOrdered (symbol op) a b)

private def isColumnName : Value → Bool
  | .str s => Text.occursIn "." s
  | _ => false

/-- Whether every value of a column is a value of another. Texts are compared where `asText` is set,
and then a null refers to nothing. -/
private def checkReference (asText : Bool) (body : Value) : Dialogue Bool := do
  let (table, column) ← attempt (do splitName (← memberOf 0 body))
  let (otherTable, otherColumn) ← attempt (do splitName (← memberOf 1 body))
  let others ← readColumn otherTable otherColumn
  checkColumn table column fun v ↦
    .ok (if asText then v.same .null || others.any (·.text == v.text) else others.any (·.same v))

/-- Whether each value is one more than the one before it. -/
private def stepsByOne : List Value → Attempt Bool
  | i :: j :: vs =>
    if i.same .null || j.same .null then .ok false
    else
      match i.arith .add (.int 1) with
      | .ok next => if j.same next then stepsByOne (j :: vs) else .ok false
      | .error _ => .error ⟨.wrongKind,
          if i.isString then "can only concatenate str (not \"int\") to str"
          else s!"unsupported operand type(s) for +: '{Trouble.kindName i}' and 'int'"⟩
  | _ => .ok true

def satisfies (constraint : Value) : Dialogue Bool := do
  let keys ← attempt (membersOf constraint)
  match keys with
  | [] => throw ⟨.exhausted, ""⟩
  | .str key :: _ =>
    let body : Dialogue Value := attempt (entryOf key constraint)
    match key with
    | "primary" => do checkKey false (← body)
    | "distinct" => do checkKey true (← body)
    | "foreign" => do checkReference false (← body)
    | "between" => do
      let body ← body
      let (table, column) ← attempt (do splitName (← memberOf 0 body))
      let low ← attempt (memberOf 1 body)
      let high ← attempt (memberOf 2 body)
      checkColumn table column fun v ↦ do
        if v.same .null then return false
        else if ← compareCells .le low v then compareCells .le v high else return false
    | "in" => do
      let body ← body
      let (table, column) ← attempt (do splitName (← memberOf 0 body))
      let allowed ← attempt (do (← membersOf (← memberOf 1 body)).mapM fun v ↦
        if v.isObject then entryOf "literal" v else return v)
      checkColumn table column fun v ↦ .ok (allowed.any (·.same v))
    | "not_null" => do
      let (table, column) ← attempt (splitName (← body))
      checkColumn table column fun v ↦ .ok (!v.same .null)
    | "inc" => do
      let v ← attempt (do entryOf "value" (← entryOf key constraint))
      let table ← attempt (pieceOf "__" 0 v)
      let column ← attempt (pieceOf "__" 1 v)
      execute s!"SELECT * FROM {table}"
      let s ← get
      let i ← attempt (columnAt s.header (.str column))
      attempt (do stepsByOne (← s.rows.mapM (cellAt · i)))
    | _ =>
      match comparison? key with
      | none => return true
      | some op => do
        let body ← body
        let other ← attempt (memberOf 1 body)
        if isColumnName other then
          if key == "eq" then checkReference true body else return true
        else
          let (table, column) ← attempt (do splitName (← memberOf 0 body))
          checkColumn table column fun v ↦ do
            if v.same .null then return true else compareCells op v other
  | _ => return true

/-- Whether the current database satisfies all constraints, which are checked in order until one
fails. -/
def satisfiesAll : List Value → Dialogue Bool
  | [] => return true
  | c :: cs => do if ← satisfies c then satisfiesAll cs else return false

end QueryEquiv.Testbed
