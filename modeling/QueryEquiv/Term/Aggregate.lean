import QueryEquiv.Term

/-!
# Aggregates over rows

The aggregate functions of a query as terms over the rows they range over. A row contributes a
value, whether it is NULL, and whether it takes part. The plain aggregates range over the rows of a
table, where a row takes part unless it is deleted; the grouped ones range over a table too, and a
row takes part if it lies in the group.
-/

namespace QueryEquiv

/-- A value and whether it is NULL. -/
abbrev Reading := Term × Term

/-- What a row contributes to an aggregate: its value, whether that is NULL, and the flag that says
whether the row takes part. -/
structure Contribution where
  val : Term
  null : Term
  flag : Term
  deriving Inhabited

namespace Aggregate

open Term

/-- Picks the larger or the smaller of two values, or the one that is not NULL. -/
def better (op : Comparison) (x y : Contribution) : Outcome Term := do
  return ite
    (or [and [← compare op x.val y.val, not (or [x.null, y.null])], and [x.null, not y.null]])
    y.val x.val

/-- Combines the first row that takes part with the rest, from the left. -/
def reduce (f : Contribution → Contribution → Outcome Contribution) :
    List Contribution → Outcome Contribution
  | [] => .error .wrongKind
  | x :: xs => xs.foldlM f x

/-- The number of terms that count, where each row counts what `weigh` says. -/
def distinctSum (counts : Contribution → List Term) (seen : Contribution → Term)
    (weigh : Contribution → Term) :
    List Contribution → List Contribution → Outcome (List Term)
  | _, [] => .ok []
  | earlier, x :: xs => do
    let fresh ← earlier.mapM fun p ↦ do
      return implies (seen p) (← compare .ne x.val p.val)
    let rest ← distinctSum counts seen weigh (earlier ++ [x]) xs
    return ite (and (counts x ++ [and fresh])) (weigh x) zero :: rest

/-! ## Over the rows of a table: the flag says that a row is deleted -/

def extreme2 (op : Comparison) (x y : Contribution) : Outcome Contribution := do
  let both ← better op x y
  return {
    val := ite (and [not x.flag, y.flag]) x.val
      (ite (and [x.flag, not y.flag]) y.val (ite (and [not x.flag, not y.flag]) both zero))
    null := and [implies (not x.flag) x.null, implies (not y.flag) y.null]
    flag := and [x.flag, y.flag] }

def extreme (op : Comparison) (rows : List Contribution) : Outcome Reading := do
  let r ← reduce (extreme2 op) rows
  return (r.val, or [r.null, r.flag])

def maximum : List Contribution → Outcome Reading := extreme .le

def minimum : List Contribution → Outcome Reading := extreme .ge

def present (x : Contribution) : List Term := [not x.flag, not x.null]

def noneLeft (rows : List Contribution) : Term := and (rows.map fun x ↦ or [x.null, x.flag])

def count (rows : List Contribution) : Outcome Reading :=
  .ok (sum (rows.map fun x ↦ indicator (and (present x))), bot)

def countDistinct (rows : List Contribution) : Outcome Reading := do
  let ts ← distinctSum present (fun p ↦ and (present p)) (fun _ ↦ one) [] rows
  return (sum ts, bot)

def summed (rows : List Contribution) : Outcome Reading :=
  .ok (sum (rows.map fun x ↦ ite (and (present x)) x.val zero), noneLeft rows)

def summedDistinct (rows : List Contribution) : Outcome Reading := do
  let ts ← distinctSum present (fun p ↦ and (present p)) (·.val) [] rows
  return (sum ts, noneLeft rows)

def average (rows : List Contribution) : Outcome Reading := do
  let (s, _) ← summed rows
  let (n, _) ← count rows
  return (arith .div s n, noneLeft rows)

def averageDistinct (rows : List Contribution) : Outcome Reading := do
  let (s, _) ← summedDistinct rows
  let (n, _) ← countDistinct rows
  return (arith .div s n, noneLeft rows)

/-! ## Over a group: the flag says that a row lies in the group -/

def groupExtreme2 (op : Comparison) (x y : Contribution) : Outcome Contribution := do
  let both ← better op x y
  return {
    val := ite (and [x.flag, not y.flag]) x.val
      (ite (and [y.flag, not x.flag]) y.val (ite (and [x.flag, y.flag]) both zero))
    null := and [implies x.flag x.null, implies y.flag y.null]
    flag := or [x.flag, y.flag] }

def groupExtreme (op : Comparison) (rows : List Contribution) : Outcome Reading := do
  let r ← reduce (groupExtreme2 op) rows
  return (r.val, r.null)

def groupMaximum : List Contribution → Outcome Reading := groupExtreme .le

def groupMinimum : List Contribution → Outcome Reading := groupExtreme .ge

def inGroup (x : Contribution) : List Term := [not x.null, x.flag]

def groupEmpty (rows : List Contribution) : Term :=
  and (rows.map fun x ↦ implies x.flag x.null)

def seenInGroup (p : Contribution) : Term := and [p.flag, not p.null]

def groupCount (rows : List Contribution) : Outcome Reading :=
  .ok (sum (rows.map fun x ↦ indicator (and (inGroup x))), bot)

def groupCountDistinct (rows : List Contribution) : Outcome Reading := do
  let ts ← distinctSum inGroup seenInGroup (fun _ ↦ one) [] rows
  return (sum ts, bot)

def groupSum (rows : List Contribution) : Outcome Reading :=
  .ok (sum (rows.map fun x ↦ ite (and (inGroup x)) x.val zero), groupEmpty rows)

def groupSumDistinct (rows : List Contribution) : Outcome Reading := do
  let ts ← distinctSum inGroup seenInGroup (·.val) [] rows
  return (sum ts, groupEmpty rows)

def groupAverage (rows : List Contribution) : Outcome Reading := do
  let (s, _) ← groupSum rows
  let (n, _) ← groupCount rows
  return (arith .div s n, groupEmpty rows)

def groupAverageDistinct (rows : List Contribution) : Outcome Reading := do
  let (s, _) ← groupSumDistinct rows
  let (n, _) ← groupCountDistinct rows
  return (arith .div s n, groupEmpty rows)

end Aggregate

end QueryEquiv
