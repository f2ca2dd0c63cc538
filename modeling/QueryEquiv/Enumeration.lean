import QueryEquiv.Value.Arithmetic
import QueryEquiv.Combinatorics

/-!
# Enumerating solutions

All solutions of comparisons between integer variables and numbers. No comparison adds an offset, so
bounds spread from variable to variable in as many rounds as there are variables; after that each
variable has its own finite range, or there are infinitely many solutions or none.
-/

namespace QueryEquiv.Enumeration

/-- What a variable is compared with. -/
inductive Operand where
  | named (name : String)
  | number (n : Int)

structure Condition where
  left : String
  op : Comparison
  right : Operand

/-- A condition written as a list of a variable, a sign, and a variable or a number. -/
def Condition.ofValue (v : Value) : Condition :=
  let part (i : Nat) : Value := match v with
    | .list xs => (xs[i]?).getD .null
    | _ => .null
  { left := (part 0).text
    op := match part 1 with
      | .str "<=" => .le
      | .str ">=" => .ge
      | .str "=" => .eq
      | _ => .ne
    right := match part 2 with
      | .str s => .named s
      | n => .number (n.integer?.getD 0) }

/-- The known lowest and highest value of a variable. -/
structure Range where
  low : Option Int := none
  high : Option Int := none

abbrev Ranges := List (String × Range)

def Ranges.get (rs : Ranges) (name : String) : Range := ((rs.find? (·.1 == name)).map (·.2)).getD {}

private def tighter (pick : Int → Int → Int) : Option Int → Option Int → Option Int
  | some a, some b => some (pick a b)
  | some a, none => some a
  | none, b => b

private def Range.meet (r s : Range) : Range := ⟨tighter max r.low s.low, tighter min r.high s.high⟩

private def Ranges.narrow (rs : Ranges) (name : String) (r : Range) : Ranges :=
  rs.map fun (n, old) ↦ if n == name then (n, old.meet r) else (n, old)

private def Operand.range (rs : Ranges) : Operand → Range
  | named v => rs.get v
  | number n => ⟨some n, some n⟩

private def Condition.spread (rs : Ranges) (c : Condition) : Ranges :=
  let l := rs.get c.left
  let r := c.right.range rs
  let forLeft (s : Range) : Ranges := rs.narrow c.left s
  let forRight (rs : Ranges) (s : Range) : Ranges :=
    match c.right with
    | .named v => rs.narrow v s
    | .number _ => rs
  match c.op with
  | .le => forRight (forLeft { high := r.high }) { low := l.low }
  | .ge => forRight (forLeft { low := r.low }) { high := l.high }
  | .eq => forRight (forLeft r) l
  | _ => rs

private def spreadAll (conditions : List Condition) : Nat → Ranges → Ranges
  | 0, rs => rs
  | n + 1, rs => spreadAll conditions n (conditions.foldl Condition.spread rs)

/-- The integers of a range; none of a range without an end. -/
private def Range.members (r : Range) : List Int :=
  match r.low, r.high with
  | some lo, some hi => (List.range (hi + 1 - lo).toNat).map fun i ↦ lo + Int.ofNat i
  | _, _ => []

def Condition.holds (value : String → Int) (c : Condition) : Bool :=
  let r := match c.right with
    | .named v => value v
    | .number n => n
  match c.op with
  | .le => value c.left ≤ r
  | .ge => value c.left ≥ r
  | .lt => value c.left < r
  | .gt => value c.left > r
  | .eq => value c.left = r
  | .ne => value c.left ≠ r

/-- The solutions, as the values of the named variables, in lexicographic order. -/
def solutions (names : List String) (conditions : List Condition) : List (List Int) :=
  let distinct := names.eraseDups
  let ranges := spreadAll conditions (distinct.length + 1) (distinct.map fun n ↦ (n, {}))
  let values := Combinatorics.tuples (ranges.map (·.2.members))
  let assignments := values.map fun vs ↦ fun (name : String) ↦ ((distinct.zip vs).lookup name).getD 0
  let good := assignments.filter fun value ↦ conditions.all (·.holds value)
  good.map fun value ↦ names.map value

end QueryEquiv.Enumeration
