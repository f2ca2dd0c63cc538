import QueryEquiv.Operator.Result

/-!
# Sorting

The choice for a row is its position in the sorted result, counted from one, or zero if the row is not
there. The position of a row is the number of other rows that come before it. A null comes first.
-/

namespace QueryEquiv.Operator

open Workspace

namespace OrderBy

/-! ## Formulas -/

/-- The readings of one sort key at two rows, and whether smaller values come first. -/
structure KeyPair where
  this : Reading
  other : Reading
  ascending : Bool

/-- Another row that is there comes not after this one by a key. -/
def precedes (input : Int) (other : Nat) (p : KeyPair) : Term :=
  let op : Comparison := if p.ascending then .le else .ge
  .and [present input other,
    .or [.and [p.other.2, .not p.this.2],
      .and [.and [.not p.other.2, .not p.this.2], .cmp op p.other.1 p.this.1]]]

/-- Another row that is there agrees with this one in a key. -/
def ties (input : Int) (other : Nat) (p : KeyPair) : Term :=
  .and [present input other,
    .or [.and [p.other.2, p.this.2],
      .and [.and [.not p.other.2, .not p.this.2], .eq p.other.1 p.this.1]]]

def comesBefore (input : Int) (other : Nat) : List Term → List KeyPair → List Term
  | _, [] => []
  | tied, p :: ps =>
    .and [.and tied, precedes input other p] :: comesBefore input other (tied ++ [ties input other p]) ps

/-- Another row comes before this one: by some key, where the keys before it tie. -/
def before (input : Int) (other : Nat) (keys : List KeyPair) : Term := .or (comesBefore input other [] keys)

/-- A row of the input at a position of the result. -/
def positionCase (input output : Int) (row position : Nat) (others copies : List Term) : Term :=
  .implies (.eq (.choice output row) (.nat position))
    (.and [present input row, present output (position - 1),
      .eq (.sum (others.map .indicator)) (.nat (position - 1)), .and copies])

/-- A row without a position is not there. -/
def noPosition (input output : Int) (row : Nat) : Term :=
  .implies (.eq (.choice output row) .zero) (absent input row)

/-- The positions are numbers up to the size of the result. -/
def inRange (output : Int) (row : Nat) (k : Value) : Term :=
  .and [.ge (.choice output row) .zero, .le (.choice output row) (.int k)]

/-- A row of the result is missing if no more rows than its number have a position. -/
def missing (output : Int) (rows slot : Nat) : Term :=
  .implies
    (.le (.sum ((List.range rows).map fun (b : Nat) ↦ .indicator (.ne (.choice output b) .zero)))
      (.nat slot))
    (absent output slot)

def size (input : Int) (rows : Nat) : Term := .sum ((List.range rows).map (presence input))

/-! ## The result -/

def indexedCell (input : Int) (row : Nat) (position : Value) : Encoding (Option Cell) := do
  match ← position.arith .sub (.int 1) with
  | .int i => cell? input row i
  | _ => throw .wrongKind

/-- The readings of a key at a row and at another; a number stands for a column by position, and a truth
value is no key. -/
def readPair (sub : Expression.Subquery) (input : Nat) (reader row other : Nat) (key : Node) :
    Encoding (Option (Reading × Reading)) := do
  let id := (← table input).id
  match key with
  | .literal (.bool _) _ => return none
  | .literal v _ => do
    match ← indexedCell id row v with
    | none => throw .absentField
    | some a =>
      match ← indexedCell id other v with
      | none => throw .absentField
      | some b => return some ((a.val, a.isNull), (b.val, b.isNull))
  | _ => do
    let a ← Expression.numberAtRow sub input row none none reader key
    let b ← Expression.numberAtRow sub input other none none reader key
    return some (a, b)

def readPairs (sub : Expression.Subquery) (input : Nat) (orders : List Value) (reader row other : Nat) :
    List (Node × Nat) → Encoding (List KeyPair)
  | [] => return []
  | (key, i) :: rest => do
    match ← readPair sub input reader row other key with
    | none => readPairs sub input orders reader row other rest
    | some (this, that) => do
      let order ← Table.atPosition orders i
      return ⟨this, that, order.same (.str "asc")⟩ :: (← readPairs sub input orders reader row other rest)

/-- The case of a row at a position. -/
def caseAt (sub : Expression.Subquery) (input : Nat) (output : Int) (keys : List (Node × Nat))
    (orders : List Value) (reader rows row position : Nat) : Encoding Term := do
  let t ← table input
  if position == 0 then return noPosition t.id output row
  else
    let others ← ((List.range rows).filter (· != row)).mapM fun other ↦ do
      return before t.id other (← readPairs sub input orders reader row other keys)
    let copies ← copyRow t.id output row (position - 1) (t.columns.map (·.id))
    return positionCase t.id output row position others copies

/-- The numbers from zero up to a bound that may be any number. -/
def upTo (k : Value) : Outcome Nat := do
  match ← k.arith .add (.int 1) with
  | .int n => return n.toNat
  | _ => .error .wrongKind

/-- The result of a sort. A limit only changes how many rows the result is taken to have. -/
def apply (sub : Expression.Subquery) (input : Nat) (label : Option String) (keys : List Node)
    (orders : List Value) (limit k : Value) : Encoding Nat := do
  let t ← table input
  let id ← newTableId
  let text ← textOf (.list keys)
  let output ← makeTable
    { id, name := t.name, columns := t.columns, bound := k, ancestors := [.one input]
      lineage := some s!"Sorted from T{t.id} ({text})" }
  changeTable output ({ · with origin := some { label, keys := some keys } })
  let reader ← newReader
  let rows ← t.rows
  append (.le (size t.id rows) (.int k)) (some s!"size_{t.id}")
  let positions ← if rows == 0 then pure 0 else upTo k
  let cases ← (List.range rows).flatMapM fun row ↦
    (List.range positions).mapM fun position ↦
      caseAt sub input id keys.zipIdx orders reader rows row position
  let slots ← (← table output).rows
  let rest := (List.range slots).map (missing id rows)
  match limit with
  | .null => pure ()
  | _ => changeTable output ({ · with bound := limit })
  append (.and (cases ++ rest ++ (List.range rows).map fun row ↦ inRange id row k)) label
  return output

end OrderBy

end QueryEquiv.Operator
