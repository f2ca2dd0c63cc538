import QueryEquiv.Term.Aggregate
import QueryEquiv.Term.Sort

/-!
# Operations on readings

A reading is the value of an expression together with the condition that it is null. Here are the
operations of the query language on readings, in three-valued logic: a comparison or a computation is
null if an operand is; a conjunction is null if an operand is and no other operand decides it.

Values may also be plain numbers; an operation that needs terms refuses them.
-/

namespace QueryEquiv.Reading

open Term (top bot zero one)

/-- A reading that is never null. -/
def certain (t : Term) : Reading := (t, bot)

def missing : Reading := (zero, top)

def anyNull (args : List Reading) : Term := .or (args.map (·.2))

/-- Both are null, or neither is and the values agree. -/
def agree (a b : Reading) : Outcome Term := do
  let both ← Term.compare .eq a.1 b.1
  return .or [.and [a.2, b.2], .and [.not (.or [a.2, b.2]), both]]

/-! ## Operators -/

def compare (op : Comparison) (args : List Reading) : Outcome Reading := do
  let vals ← args.mapM fun a ↦ a.1.ensureNumber
  match vals with
  | [a, b] => return (← Term.compare op a b, anyNull args)
  | _ => .error .wrongKind

/-- A quotient is null also if the divisor is zero. -/
def compute (op : Arith) (args : List Reading) : Outcome Reading := do
  match args with
  | [a, b] =>
    let val ← Term.compute op a.1 b.1
    match op with
    | .div => return (val, .or [anyNull args, ← Term.compare .eq b.1 zero])
    | _ => return (val, anyNull args)
  | _ => .error .wrongKind

def negative (args : List Reading) : Outcome Reading := do
  match args with
  | [a] => return (← a.1.negate, anyNull args)
  | _ => .error .wrongKind

def negation (args : List Reading) : Outcome Reading :=
  match args with
  | [a] => .ok (.not a.1, anyNull args)
  | _ => .error .wrongKind

def conjunction (args : List Reading) : Outcome Reading := do
  let vals ← args.mapM fun a ↦ a.1.ensureTruth
  let open' := (vals.zip args).map fun (v, a) ↦ .implies (.not a.2) v
  return (.and vals, .and [anyNull args, .and open'])

def disjunction (args : List Reading) : Outcome Reading := do
  let vals ← args.mapM fun a ↦ a.1.ensureTruth
  let open' := (vals.zip args).map fun (v, a) ↦ .implies (.not a.2) (.not v)
  return (.or vals, .and [anyNull args, .and open'])

def operate (name : String) (args : List Reading) : Outcome Reading :=
  match name with
  | "gt" => compare .gt args
  | "gte" => compare .ge args
  | "lt" => compare .lt args
  | "lte" => compare .le args
  | "eq" => compare .eq args
  | "neq" => compare .ne args
  | "add" => compute .add args
  | "sub" => compute .sub args
  | "mul" => compute .mul args
  | "div" => compute .div args
  | "neg" => negative args
  | "not" => negation args
  | "and" => conjunction args
  | "or" => disjunction args
  | _ => .error (.unsupported none)

/-! ## Ranges -/

/-- The condition that a range test is null: the value is, or one bound is and the other does not
decide, or both bounds are. -/
def rangeNull (v lo hi : Reading) : Outcome Term := do
  let above ← Term.compare .gt v.1 hi.1
  let below ← Term.compare .lt v.1 lo.1
  return .or [v.2, .and [.not v.2, lo.2, .not hi.2, .not above],
    .and [.not v.2, .not lo.2, hi.2, .not below], .and [lo.2, hi.2]]

def between (v lo hi : Reading) : Outcome Reading := do
  let val := .and [← Term.compare .ge v.1 lo.1, ← Term.compare .le v.1 hi.1]
  return (val, ← rangeNull v lo hi)

def notBetween (v lo hi : Reading) : Outcome Reading := do
  let val := .or [← Term.compare .lt v.1 lo.1, ← Term.compare .gt v.1 hi.1]
  return (val, ← rangeNull v lo hi)

/-! ## Membership -/

def matchesOne (lhs rhs : Reading) : Outcome Term := do
  let same ← Term.compare .eq lhs.1 rhs.1
  return .and [.not lhs.2, .not rhs.2, same]

def memberNull (lhs : Reading) (val : Term) (rhs : List Reading) : Term :=
  .or [lhs.2, .and [.not lhs.2, .not val, anyNull rhs]]

/-- Whether a value is among others. -/
def among (lhs : Reading) (rhs : List Reading) : Outcome Reading := do
  let val := .or (← rhs.mapM (matchesOne lhs))
  return (val, memberNull lhs val rhs)

/-- Whether a value is not among others. -/
def notAmong (lhs : Reading) (rhs : List Reading) : Outcome Reading := do
  let val := .not (.or (← rhs.mapM (matchesOne lhs)))
  return (val, memberNull lhs val rhs)

def firstColumns (table : Int) (row width : Nat) : List Reading :=
  (List.range width).map fun (c : Nat) ↦ (.cell table row c, .null table row c)

/-- Whether some row of a table is the given tuple. -/
def inTable (table : Int) (rows : Nat) (lhs : List Reading) : Outcome Reading := do
  let hits ← (List.range rows).mapM fun row ↦ do
    let parts ← (lhs.zip (firstColumns table row lhs.length)).mapM fun (l, r) ↦ do
      let same ← Term.compare .eq l.1 r.1
      return Term.and [.and [.not l.2, .not r.2], same]
    return Term.and (.not (.deleted table row) :: parts)
  return certain (.or hits)

/-- Whether every row of a table differs from the given tuple. -/
def notInTable (table : Int) (rows : Nat) (lhs : List Reading) : Outcome Reading := do
  let misses ← (List.range rows).mapM fun row ↦ do
    let parts ← (lhs.zip (firstColumns table row lhs.length)).mapM fun (l, r) ↦ do
      let differ ← Term.compare .ne l.1 r.1
      return Term.and [.not (.or [l.2, r.2]), differ]
    return Term.implies (.not (.deleted table row)) (.or parts)
  return certain (.or [.and ((List.range rows).map fun (row : Nat) ↦ .deleted table row), .and misses])

def noRow (table : Int) (rows : Nat) : Reading :=
  certain (.and ((List.range rows).map fun (row : Nat) ↦ .deleted table row))

def someRow (table : Int) (rows : Nat) : Reading :=
  certain (.or ((List.range rows).map fun (row : Nat) ↦ .not (.deleted table row)))

def firstCell (table : Int) : Reading := (.cell table 0 0, .null table 0 0)

/-! ## Choices -/

/-- The result if the condition is true, else what follows. -/
def orElse (cond result next : Reading) : Reading :=
  let holds : Term := .and [.not cond.2, cond.1]
  (.ite holds result.1 next.1, .ite holds result.2 next.2)

/-- The first of two readings that is not null. -/
def orNext (a b : Reading) : Reading := (.ite (.not a.2) a.1 b.1, .and [a.2, b.2])

/-- The time of day weighs a day's worth more than the date. -/
def timestamp (date time : Reading) : Outcome Reading := do
  let scaled ← Term.compute .mul time.1 (.int (.int 100000))
  return (← Term.compute .add scaled date.1, .or [date.2, time.2])

/-- A date moved by a number of days, which is taken not to be null. -/
def shift (op : Arith) (date : Reading) (days : Term) : Outcome Reading := do
  return (← Term.compute op date.1 days, date.2)

/-- The days from the second date to the first. -/
def daysBetween (a b : Reading) (null : Term) : Outcome Reading := do
  return (← Term.compute .sub a.1 b.1, null)

end QueryEquiv.Reading
