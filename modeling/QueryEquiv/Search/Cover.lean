import QueryEquiv.Table
import QueryEquiv.Value.Arithmetic
import QueryEquiv.Formulas

/-!
# Covers

The decisions of a clause are a vector of choices, one for each row of its table. A cover is a family of
partial vectors: some positions are left open in all of them, and the other positions run through all
combinations of 0 and 1. So every decision agrees with a member of the cover wherever that member is
fixed.

The members are numbered: a number's binary digits are the choices, with the most significant digit first.
In this way a cover can be gone through without being written out.
-/

namespace QueryEquiv.Search

/-- Which positions are left open, and whether the choices come twice over, as they do for groups. -/
structure Cover where
  opens : List Bool
  twice : Bool := false

namespace Cover

/-- How many of the positions are not left open. -/
def width (opens : List Bool) : Nat := opens.countP (!·)

/-- The number of members. -/
def count (c : Cover) : Nat := Nat.pow 2 (width c.opens)

/-- The choices of a number at the given positions. -/
def bits : List Bool → Nat → Choices
  | [], _ => []
  | true :: rest, i => .free :: bits rest i
  | false :: rest, i => .fixed (.int (i / Nat.pow 2 (width rest) % 2 : Nat)) :: bits rest i

def member (c : Cover) (i : Nat) : Choices :=
  let vec := bits c.opens i
  if c.twice then vec ++ vec else vec

def members (c : Cover) : List Choices := (List.range c.count).map c.member

/-! ## The cover of a table -/

/-- How many positions are left open: at the beginning, at the end, at both sides, or a part of all. What
is missing is not asked for. -/
structure Openness where
  left : Value := .null
  right : Value := .null
  sides : Value := .null
  ratio : Value := .null

def isGiven : Value → Bool
  | .null => false
  | _ => true

def whole (v : Value) : Outcome Int :=
  match v.integer? with
  | some n => .ok n
  | none => .error .wrongKind

def positions (left middle right : Int) : List Bool :=
  List.replicate left.toNat true ++ List.replicate middle.toNat false ++ List.replicate right.toNat true

def allOpen (t : Table) : Outcome Cover := do return { opens := positions (← whole t.bound) 0 0 }

/-- Whether some positions stay fixed when so many are left open. -/
def leavesSome (opens bound : Value) : Outcome Bool :=
  if isGiven opens then opens.before bound else .ok false

def twofold (opens : Value) : Outcome Value :=
  if isGiven opens then opens.arith .mul (.int 2) else .ok .null

/-- A part of the positions is left open, the last ones. -/
def byRatio (t : Table) (ratio : Value) : Outcome (List Bool) := do
  let opens ← (← t.bound.arith .mul ratio).truncated
  let size ← whole t.bound
  if opens < 0 || size < opens then .error .badValue else return positions 0 (size - opens) opens

/-- The cover for the choices of a table. The order of rows is not a matter of choice, so a sorted table
leaves everything open. -/
def ofTable (t : Table) (o : Openness) : Outcome Cover := do
  let twice := t.mentionsIfAny "Grouped"
  if ← t.mentions "Sorted" then allOpen t
  else if ← leavesSome (← twofold o.sides) t.bound then
    let (n, k) := (← whole t.bound, ← whole o.sides)
    return { opens := positions k (n - k * 2) k, twice }
  else if ← leavesSome o.left t.bound then
    let (n, k) := (← whole t.bound, ← whole o.left)
    return { opens := positions k (n - k) 0, twice }
  else if ← leavesSome o.right t.bound then
    let (n, k) := (← whole t.bound, ← whole o.right)
    return { opens := positions 0 (n - k) k, twice }
  else if isGiven o.ratio then return { opens := ← byRatio t o.ratio, twice }
  else allOpen t

end Cover

end QueryEquiv.Search
