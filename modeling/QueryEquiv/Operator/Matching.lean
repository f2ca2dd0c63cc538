import QueryEquiv.Combinatorics
import QueryEquiv.Operator.Join

/-!
# Joins by matchings

A right or full join that goes through the possible numbers of rows of both tables and, for each, through
the sets of pairs that may match. For every such matching it says what the result is. How many
matchings are considered is limited, and so is the number of rows that a matching may give.
-/

namespace QueryEquiv.Operator

open Workspace

namespace Matching

/-- What has been found out about a matching: its conditions, what the result is then, the number of
rows of the result, and how many pairs each row is in. -/
structure Branch where
  conditions : List Term
  result : List Term := []
  rows : Nat := 0
  leftPairs : List Nat := []
  rightPairs : List Nat := []

def occurrences (i : Nat) (xs : List Nat) : Nat := xs.count i

/-- The rows that a matching has beyond the given number: one for each pair with a row beyond its first. -/
def surplus (xs : List Nat) : Nat := xs.length - xs.eraseDups.length

/-- The bits of a matching: the n-th of all, where the first pair counts most. -/
def bits (width n : Nat) : List Bool := (List.range width).map fun i ↦ (n >>> (width - 1 - i)) % 2 == 1

/-- How the join handles the two sides. -/
structure Mode where
  full : Bool
  limits : MatchingLimits

def limit (v : Option Value) : Encoding Value :=
  match v with
  | some v => return v
  | none => throw .absentField

/-- Whether the rows that a matching gives are too many. -/
def tooMany (mode : Mode) (leftSize rightSize : Nat) (b : Branch) : Encoding Bool := do
  let exceeds (n : Nat) : Encoding Bool := do
    let k ← limit mode.limits.rows
    (Value.int n).compare .gt k
  if mode.full then
    if ← exceeds (leftSize + rightSize + surplus b.leftPairs) then return true
    else exceeds (leftSize + rightSize + surplus b.rightPairs)
  else exceeds (rightSize + surplus b.rightPairs)

/-- Goes through the pairs; nothing if the matching gives too many rows. -/
def pairUp (mode : Mode) (s : Join.Sides) (read : Nat → Nat → Encoding Reading)
    (leftSize rightSize : Nat) : List ((Nat × Nat) × Bool) → Branch → Encoding (Option Branch)
  | [], b => return some b
  | ((i, j), matched) :: rest, b => do
    let (val, null) ← read i j
    if matched then
      let b := { b with leftPairs := b.leftPairs ++ [i], rightPairs := b.rightPairs ++ [j] }
      if ← tooMany mode leftSize rightSize b then return none
      else
        let copies ← s.pairCopies i j b.rows
        pairUp mode s read leftSize rightSize rest
          { b with
            conditions := b.conditions ++ [.and [val, .not null]]
            result := b.result ++ copies
            rows := b.rows + 1 }
    else
      pairUp mode s read leftSize rightSize rest
        { b with conditions := b.conditions ++ [unmet val null] }

/-- Adds the rows of one side that the given pairs leave out. -/
def addUnpaired (s : Join.Sides) (side : Int) (paired : Branch → List Nat) :
    List Nat → Branch → Encoding Branch
  | [], b => return b
  | i :: rest, b => do
    if occurrences i (paired b) == 0 then
      let copies ← s.extraCopies side i b.rows
      addUnpaired s side paired rest { b with result := b.result ++ copies, rows := b.rows + 1 }
    else addUnpaired s side paired rest b

/-- The branches of all matchings from the n-th on, together with the number of matchings so far. -/
def branchesFrom (mode : Mode) (s : Join.Sides) (read : Nat → Nat → Encoding Reading)
    (sizes : List Term) (leftSize rightSize : Nat) :
    Nat → Nat → Nat → Encoding (List Branch × Nat)
  | 0, _, count => return ([], count)
  | fuel + 1, n, count => do
    let count := count + 1
    let most ← limit mode.limits.matchings
    if ← (Value.int count).compare .gt most then return ([], count)
    else
      let pairs := Join.Sides.pairs leftSize rightSize
      let b ← pairUp mode s read leftSize rightSize (pairs.zip (bits pairs.length n)) { conditions := sizes }
      match b with
      | none => branchesFrom mode s read sizes leftSize rightSize fuel (n + 1) count
      | some b => do
        let b ← if mode.full then addUnpaired s s.left.id (·.leftPairs) (List.range leftSize) b else pure b
        let b ← addUnpaired s s.right.id (if mode.full then (·.leftPairs) else (·.rightPairs))
          (List.range rightSize) b
        let (rest, count) ← branchesFrom mode s read sizes leftSize rightSize fuel (n + 1) count
        return (b :: rest, count)

def branches (mode : Mode) (s : Join.Sides) (read : Nat → Nat → Encoding Reading) :
    List (List Int) → Nat → Encoding (List Branch)
  | [], _ => return []
  | sizes :: rest, count => do
    let l := (sizes.headD 0).toNat
    let r := (sizes.getLastD 0).toNat
    let terms : List Term := [.eq (.size s.left.id) (.nat l), .eq (.size s.right.id) (.nat r)]
    let (here, count) ← branchesFrom mode s read terms l r (2 ^ (l * r)) 0 count
    return here ++ (← branches mode s read rest count)

/-- The formula of a join by matchings. -/
def formula (output : Int) (bound : Value) (bs : List Branch) : Term :=
  let size : Term := .size output
  let cases := bs.map fun b ↦
    Term.implies (.and b.conditions) (.and (b.result ++ [.eq size (.nat b.rows)]))
  .and [.and ([.ge size .zero, .le size (.int bound)] ++ cases), .or (bs.map fun b ↦ .and b.conditions)]

def boundOf (t : Table) : Outcome Int :=
  match t.bound with
  | .int n => .ok n
  | .bool b => .ok (if b then 1 else 0)
  | _ => .error .wrongKind

def apply (sub : Expression.Subquery) (full : Bool) (left right : Nat) (r : Join.Request) (k : Value) :
    Encoding Nat := do
  let (cond, output, cut) ← Join.makeResult left right r k
  let s ← Join.sides left right output
  let reader ← newReader
  let read (i j : Nat) := Expression.truthAtPair sub left right i j reader cond
  let w ← get
  let mode : Mode := ⟨full, if full then w.fullLimits else w.rightLimits⟩
  let sizes := Combinatorics.sizesWithin [← boundOf s.left, ← boundOf s.right] (← boundOf s.output)
  let bs ← branches mode s read sizes 0
  append (formula s.output.id s.output.bound bs) r.label
  return cut.getD output

end Matching

end QueryEquiv.Operator
