import QueryEquiv.Text.Integer
import QueryEquiv.Value

/-!
# Arithmetic on values

Sums, products, powers and comparisons of plain values. A number mixed with a floating-point number
becomes one; texts and lists can be joined and repeated; everything else is refused.
-/

namespace QueryEquiv

inductive Arith where
  | add | sub | mul | div
  deriving DecidableEq, Repr

inductive Comparison where
  | gt | ge | lt | le | eq | ne
  deriving DecidableEq, Repr

namespace Value

/-- A number as a floating-point number; an integer beyond its range has none. -/
def toFloat (v : Value) : Outcome Float :=
  let ofInteger (n : Int) : Outcome Float :=
    let x := Float.ofInt n
    if x.isInf then .error .overflow else .ok x
  match v with
  | float x => .ok x
  | int n => ofInteger n
  | bool b => ofInteger (if b then 1 else 0)
  | _ => .error .wrongKind

def repeated {α : Type} (xs : List α) (n : Int) : List α := (List.replicate n.toNat xs).flatten

def arith (op : Arith) (a b : Value) : Outcome Value :=
  match op, a, b with
  | .add, str s, str t => .ok (str (s ++ t))
  | .add, list xs, list ys => .ok (list (xs ++ ys))
  | _, _, _ =>
    match op, a.integer?, b.integer? with
    | .add, some m, some n => .ok (int (m + n))
    | .sub, some m, some n => .ok (int (m - n))
    | .mul, some m, some n => .ok (int (m * n))
    | .mul, some m, none =>
      match b with
      | str s => .ok (str (String.ofList (repeated s.toList m)))
      | list xs => .ok (list (repeated xs m))
      | _ => do return float ((← a.toFloat) * (← b.toFloat))
    | .mul, none, some n =>
      match a with
      | str s => .ok (str (String.ofList (repeated s.toList n)))
      | list xs => .ok (list (repeated xs n))
      | _ => do return float ((← a.toFloat) * (← b.toFloat))
    | _, _, _ =>
      if a.isNumber && b.isNumber then do
        let x ← a.toFloat
        let y ← b.toFloat
        match op with
        | .add => return float (x + y)
        | .sub => return float (x - y)
        | .mul => return float (x * y)
        | .div => if y == 0 then .error .divisionByZero else return float (x / y)
      else .error .wrongKind

/-- A value as an integer: a text has to read as one, and a floating-point number is cut off toward
zero. -/
def truncated : Value → Outcome Int
  | int n => .ok n
  | bool b => .ok (if b then 1 else 0)
  | str s =>
    match Text.readInt? s with
    | some n => .ok n
    | none => .error .badValue
  | float x =>
    match truncateFloat? x with
    | some n => .ok n
    | none => if x.isNaN then .error .badValue else .error .overflow
  | _ => .error .wrongKind

def neg : Value → Outcome Value
  | int n => .ok (int (-n))
  | bool b => .ok (int (if b then -1 else 0))
  | float x => .ok (float (-x))
  | _ => .error .wrongKind

/-- `a` to the power `b`. A negative whole exponent gives a floating-point number. -/
def pow (a b : Value) : Outcome Value :=
  match a.integer?, b.integer? with
  | some m, some n =>
    if 0 ≤ n then .ok (int (m.pow n.toNat))
    else if m = 0 then .error .divisionByZero
    else do return float (Float.pow (← a.toFloat) (← b.toFloat))
  | _, _ =>
    if a.isNumber && b.isNumber then do
      let x ← a.toFloat
      let y ← b.toFloat
      if x == 0 && y < 0 then .error .divisionByZero
      else
        let r := Float.pow x y
        if r.isInf && !x.isInf && !y.isInf then .error .overflow else return float r
    else .error .wrongKind

/-- Whether `a` comes before `b`; only numbers, texts, dates and lists of these are ordered. -/
def before (a b : Value) : Outcome Bool :=
  match a, b with
  | str s, str t => .ok (s < t)
  | date d, date e => .ok (d.ordinal < e.ordinal)
  | _, _ =>
    match a.integer?, b.integer? with
    | some m, some n => .ok (m < n)
    | _, _ =>
      if a.isNumber && b.isNumber then do return (← a.toFloat) < (← b.toFloat)
      else .error .wrongKind

def compare (op : Comparison) (a b : Value) : Outcome Bool :=
  match op with
  | .eq => .ok (a.same b)
  | .ne => .ok (!a.same b)
  | .lt => before a b
  | .gt => before b a
  | .le => do return (← before a b) || a.same b
  | .ge => do return (← before b a) || a.same b

end Value

end QueryEquiv
