import QueryEquiv.Operator.Result

/-!
# Joins

Every pair of rows of two tables has a row in the result of a join. It is kept if both rows are there
and the condition is true. A left join has a row more for each row of the left table, which is there if
no pair with it was kept, and in which the columns of the right table are null.
-/

namespace QueryEquiv.Operator

open Workspace

/-! ## Formulas -/

/-- A pair of rows: what a join knows of it. Without a condition there is no reading. -/
structure JoinedPair where
  left : Nat
  right : Nat
  condition : Option Reading
  copies : List Term

namespace Join

/-- The cases for a pair: kept if both rows are there and the condition is true, otherwise dropped. -/
def pairCases (left right output : Int) (row : Nat) (p : JoinedPair) : List Term :=
  let goneLeft := absent left p.left
  let goneRight := absent right p.right
  let holds : List Term := match p.condition with
    | some (val, null) => [.and [.not null, val]]
    | none => []
  let fails : List Term := match p.condition with
    | some (val, null) => [.and [.not (.or [goneLeft, goneRight]), unmet val null]]
    | none => []
  [.implies (kept output row)
      (.and ([present left p.left, present right p.right] ++ holds ++ [.and p.copies, present output row])),
    .implies (dropped output row) (.and [.or ([goneLeft, goneRight] ++ fails), absent output row])]

def cases (left right output : Int) (pairs : List JoinedPair) : List Term :=
  pairs.zipIdx.flatMap fun (p, i) ↦ pairCases left right output i p

/-- The positions of the pairs with a row of the left table. -/
def pairsOf (pairs : List JoinedPair) (left : Nat) : List Nat :=
  (pairs.zipIdx.filter fun (p, _) ↦ p.left == left).map (·.2)

/-- The extra row of a left row: there if the left row is and all pairs with it were dropped. -/
def extraCases (left output : Int) (bits : List Nat) (leftRow row : Nat) (mapping : List Term) : List Term :=
  [.implies (.and [present left leftRow, .and (bits.map (dropped output))])
      (.and [.and mapping, present output row]),
    .implies
      (.or [absent left leftRow,
        .and [present left leftRow, .or (bits.map fun (b : Nat) ↦ .ne (.choice output b) .zero)]])
      (absent output row)]

/-! ## The tables of a join -/

/-- The tables of a join. -/
structure Sides where
  left : Table
  right : Table
  output : Table
  /-- Where the columns of the result come from, by table and column. -/
  sources : List (Int × Int)

inductive Kind where
  | inner
  | left
  | right
  | full
  | product
  deriving DecidableEq, Repr

def Kind.ofName : Value → Outcome Kind
  | .str "join" | .str "inner join" => .ok .inner
  | .str "left join" | .str "left outer join" => .ok .left
  | .str "right join" | .str "right outer join" => .ok .right
  | .str "full join" | .str "full outer join" => .ok .full
  | .str "cross join" => .ok .product
  | v => .error (.unsupported (some s!"Join type {v.text} not supported"))

/-- The largest number of rows of a join: the pairs, and the rows that a side adds. -/
def Kind.bound (kind : Kind) (left right : Value) : Outcome Value := do
  let pairs ← left.arith .mul right
  match kind with
  | .inner | .product => return pairs
  | .left => pairs.arith .add left
  | .right => pairs.arith .add right
  | .full => (← pairs.arith .add left).arith .add right

/-- What a join is asked to do. -/
structure Request where
  label : Option String
  kind : Value
  cond : Node
  shared : Node

/-- The condition of a join: the one given, or equality of the shared column. -/
def condition (left right : Table) (r : Request) : Encoding Node := do
  if r.shared.isMissing then return r.cond
  else
    let v ← Expression.literalValue r.shared
    Node.apply (.str "eq")
      [.attr s!"{left.name.text}.{v.text}", .attr s!"{right.name.text}.{v.text}"] .null

def renumbered (columns : List Column) : List Column :=
  columns.zipIdx.map fun (c, i) ↦ { c with id := i }

def makeResult (left right : Nat) (r : Request) (k : Value) : Encoding (Node × Nat × Option Nat) := do
  let l ← table left
  let rt ← table right
  let cond ← condition l rt r
  let id ← newTableId
  let bound ← (← Kind.ofName r.kind).bound l.bound rt.bound
  let text ← textOf cond
  let output ← makeTable
    { id, bound
      name := .str s!"!{l.name.text}_JOIN_{rt.name.text}!"
      columns := renumbered (l.columns ++ rt.columns)
      ancestors := [.one left, .one right]
      lineage := some s!"Joined from T{l.id} and T{rt.id} on ({text})" }
  changeTable output ({ · with origin := some { label := r.label } })
  let cut ← cutDown output k
  return (cond, output, cut)

def sides (left right output : Nat) : Encoding Sides := do
  let l ← table left
  let r ← table right
  let o ← table output
  return ⟨l, r, o, l.columns.map (fun c ↦ (l.id, c.id)) ++ r.columns.map fun c ↦ (r.id, c.id)⟩

namespace Sides

/-- The result of a pair of rows is copied from them into a row. -/
def pairCopies (s : Sides) (i j row : Nat) : Encoding (List Term) :=
  s.sources.zipIdx.mapM fun ((t, c), position) ↦
    copyOf (t, (if t == s.left.id then i else j : Nat), c) (s.output.id, row, position)

/-- A row of one table goes into a row of the result, where the columns of the other table are null. -/
def extraCopies (s : Sides) (side : Int) (i row : Nat) : Encoding (List Term) :=
  s.sources.zipIdx.mapM fun ((t, c), position) ↦ do
    let target ← cell? s.output.id row position
    if t == side then copyOf (t, i, c) (s.output.id, row, position)
    else
      match target with
      | some target => return target.isNull
      | none => throw .absentField

/-- All pairs of rows, by the left row first. -/
def pairs (leftRows rightRows : Nat) : List (Nat × Nat) :=
  (List.range leftRows).flatMap fun i ↦ (List.range rightRows).map fun j ↦ (i, j)

end Sides

/-- The pairs with the readings of the condition, if there is one, and their copies. -/
def readPairs (s : Sides) (read : Option (Nat → Nat → Encoding Reading)) :
    Nat → List (Nat × Nat) → Encoding (List JoinedPair)
  | _, [] => return []
  | row, (i, j) :: rest => do
    let condition ← match read with
      | some read => do pure (some (← read i j))
      | none => pure none
    let copies ← s.pairCopies i j row
    return ⟨i, j, condition, copies⟩ :: (← readPairs s read (row + 1) rest)

/-! ## Inner joins, products and left joins -/

/-- An inner join, or a product if no condition is read. -/
def pairwise (sub : Expression.Subquery) (conditional : Bool) (left right : Nat) (r : Request) (k : Value) :
    Encoding Nat := do
  let (cond, output, cut) ← makeResult left right r k
  let s ← sides left right output
  let reader ← newReader
  let read : Option (Nat → Nat → Encoding Reading) :=
    if conditional then some fun (i j : Nat) ↦ Expression.truthAtPair sub left right i j reader cond else none
  let joined ← readPairs s read 0 (Sides.pairs (← s.left.rows) (← s.right.rows))
  let id := s.output.id
  settle output cut k r.label (.choice id ·) (kept id) (cases s.left.id s.right.id id joined)
    (allDecided id joined.length)

def extras (s : Sides) (joined : List JoinedPair) : List Nat → Encoding (List Term)
  | [] => return []
  | row :: rows => do
    let target := joined.length + row
    let mapping ← s.extraCopies s.left.id row target
    let here := extraCases s.left.id s.output.id (pairsOf joined row) row target mapping
    return here ++ (← extras s joined rows)

/-- A left join. Its rows are weighed by whether they are there, since the extra rows have no choice. -/
def leftJoin (sub : Expression.Subquery) (left right : Nat) (r : Request) (k : Value) : Encoding Nat := do
  let (cond, output, cut) ← makeResult left right r k
  let s ← sides left right output
  let reader ← newReader
  let read (i j : Nat) := Expression.truthAtPair sub left right i j reader cond
  let leftRows ← s.left.rows
  let joined ← readPairs s (some read) 0 (Sides.pairs leftRows (← s.right.rows))
  let more ← extras s joined (List.range leftRows)
  let id := s.output.id
  settle output cut k r.label (presence id) (present id) (cases s.left.id s.right.id id joined)
    (allDecided id joined.length ++ more)

end Join

end QueryEquiv.Operator
