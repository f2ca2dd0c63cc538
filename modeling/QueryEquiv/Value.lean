import QueryEquiv.Fault
import QueryEquiv.Calendar
import QueryEquiv.Text.Decimal
import QueryEquiv.Text.Quoted

/-!
# Values

The untyped values that trees of queries, constraints and schemas are made of. Objects keep the
order of their entries, which matters: the first entry of an expression names its operator. Integers
and floating-point numbers are different values that may be equal, `1` and `1.0`, and so are the
truth values and the integers `0` and `1`.
-/

namespace QueryEquiv

open Text

inductive Value where
  | null
  | bool (b : Bool)
  | int (n : Int)
  | float (x : Float)
  | str (s : String)
  | date (d : Date)
  | time (t : TimeOfDay)
  | list (items : List Value)
  | object (entries : List (String × Value))
  /-- A table written out in a query: its name, the names of its columns and its rows. -/
  | inline (name : Value) (columns : List Value) (rows : List Value)
  deriving Inhabited

namespace Value

/-! ## Access -/

/-- The last entry under a key: later entries replace earlier ones. -/
def lookup (key : String) : List (String × Value) → Option Value
  | [] => none
  | (k, v) :: rest =>
    match lookup key rest with
    | some w => some w
    | none => if k == key then some v else none

def get? (key : String) : Value → Option Value
  | object es => lookup key es
  | _ => none

def truthy : Value → Bool
  | null => false
  | bool b => b
  | int n => n ≠ 0
  | float x => x != 0
  | str s => !s.isEmpty
  | list xs => !xs.isEmpty
  | object es => !es.isEmpty
  | date _ | time _ | inline .. => true

def isString : Value → Bool
  | str _ => true
  | _ => false

def isObject : Value → Bool
  | object _ => true
  | _ => false

def isList : Value → Bool
  | list _ => true
  | _ => false

/-- Integers; a truth value counts as one. -/
def isInteger : Value → Bool
  | int _ | bool _ => true
  | _ => false

def isNumber : Value → Bool
  | int _ | bool _ | float _ => true
  | _ => false

/-! ## Text -/

/-- The moment a time of day is understood to belong to, field by field. -/
def timeText (t : TimeOfDay) : String :=
  s!"time.struct_time(tm_year=1900, tm_mon=1, tm_mday=1, tm_hour={t.hour}, tm_min={t.minute}, " ++
    s!"tm_sec={t.second}, tm_wday=0, tm_yday=1, tm_isdst=-1)"

mutual

/-- The text of a value inside another one: strings are quoted. -/
def repr : Value → String
  | null => "None"
  | bool b => if b then "True" else "False"
  | int n => toString n
  | float x => floatText x
  | str s => quoted s
  | date d => s!"datetime.date({d.year}, {d.month}, {d.day})"
  | time t => timeText t
  | list xs => "[" ++ ", ".intercalate (reprs xs) ++ "]"
  | object es => "\x7b" ++ ", ".intercalate (reprEntries es) ++ "\x7d"
  | inline n cs rows =>
    (match n with
      | str s => s
      | date d => d.text
      | v => repr v) ++
      "=([" ++ ", ".intercalate (reprs cs) ++ "], #" ++ toString rows.length ++ ": " ++
      "[" ++ ", ".intercalate (reprs rows) ++ "])"

def reprs : List Value → List String
  | [] => []
  | v :: vs => repr v :: reprs vs

def reprEntries : List (String × Value) → List String
  | [] => []
  | (k, v) :: es => (quoted k ++ ": " ++ repr v) :: reprEntries es

end

/-- The text of a value standing alone: strings are themselves. -/
def text : Value → String
  | str s => s
  | date d => d.text
  | v => repr v

def tupleText (xs : List Value) : String :=
  match reprs xs with
  | [x] => "(" ++ x ++ ",)"
  | xs => "(" ++ ", ".intercalate xs ++ ")"

/-- The text of a table written out in a query. Every cell has to be an object with an entry, the
first of which is shown. -/
def inlineText (name : Value) (columns rows : List Value) : Outcome String := do
  let cell : Value → Outcome Value
    | object ((_, v) :: _) => .ok v
    | object [] => .error .outOfRange
    | _ => .error .absentField
  let row : Value → Outcome Value
    | list cells => do return list (← cells.mapM cell)
    | str s => if s.isEmpty then .ok (list []) else .error .absentField
    | object es => if es.isEmpty then .ok (list []) else .error .absentField
    | _ => .error .wrongKind
  let shown ← rows.mapM row
  return s!"{name.text}=({(list columns).repr}, #{rows.length}: {(list shown).repr})"

/-! ## Numbers and equality -/

/-- The integer that a finite floating-point number is, if it is one. -/
def wholeFloat? (x : Float) : Option Int :=
  if x.isNaN || x.isInf then none
  else
    let sign : Int := if x.toBits.toNat / Nat.pow 2 63 = 1 then -1 else 1
    match Binary.ofBits x.toBits with
    | none => some 0
    | some b =>
      if 0 ≤ b.exponent then some (sign * (b.mantissa * Nat.pow 2 b.exponent.toNat : Nat))
      else
        let unit := Nat.pow 2 (-b.exponent).toNat
        if b.mantissa % unit = 0 then some (sign * (b.mantissa / unit : Nat)) else none

/-- The integer part of a finite floating-point number, cut off toward zero. -/
def truncateFloat? (x : Float) : Option Int :=
  if x.isNaN || x.isInf then none
  else
    let sign : Int := if x.toBits.toNat / Nat.pow 2 63 = 1 then -1 else 1
    match Binary.ofBits x.toBits with
    | none => some 0
    | some b =>
      if 0 ≤ b.exponent then some (sign * (b.mantissa * Nat.pow 2 b.exponent.toNat : Nat))
      else some (sign * (b.mantissa / Nat.pow 2 (-b.exponent).toNat : Nat))

def integer? : Value → Option Int
  | int n => some n
  | bool b => some (if b then 1 else 0)
  | _ => none

mutual

/-- Equality across kinds of numbers; objects are equal when they have equal entries, in any
order. -/
def same : Value → Value → Bool
  | null, null => true
  | str a, str b => a == b
  | date a, date b => a == b
  | time a, time b => a == b
  | float a, float b => a == b
  | float a, int b => wholeFloat? a == some b
  | float a, bool b => wholeFloat? a == some (if b then 1 else 0)
  | int a, float b => wholeFloat? b == some a
  | bool a, float b => wholeFloat? b == some (if a then 1 else 0)
  | int a, int b => a == b
  | bool a, bool b => a == b
  | int a, bool b => a == (if b then 1 else 0)
  | bool a, int b => b == (if a then 1 else 0)
  | list xs, list ys => sameList xs ys
  | object es, object fs => es.length == fs.length && sameEntries es fs
  | _, _ => false

def sameList : List Value → List Value → Bool
  | [], [] => true
  | x :: xs, y :: ys => same x y && sameList xs ys
  | _, _ => false

def sameEntries : List (String × Value) → List (String × Value) → Bool
  | [], _ => true
  | (k, v) :: es, fs =>
    (match fs.find? (·.1 == k) with
      | some (_, w) => same v w
      | none => false) && sameEntries es fs

end

def isZero (v : Value) : Bool := v.same (int 0)

end Value

end QueryEquiv
