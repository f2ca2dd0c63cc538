import QueryEquiv.Term

/-!
# Terms in infix form

A text of terms for reading: operators stand between their arguments, and every application is in brackets.
A term has this text only if its parts have the right sorts. Negations of negations and conjunctions
with fewer than two parts are left out, and greater-than is written as less-than.
-/

namespace QueryEquiv.Term

/-- A text with what has to be known to put it together with others. -/
structure Infix where
  text : String
  /-- Whether it stands for a truth value, and not for a number. -/
  isTruth : Bool := false
  isNumeral : Bool := false
  /-- What is negated, if it is a negation. -/
  negated : Option String := none

namespace Infix

def number (text : String) : Infix := { text }

def truth (text : String) : Infix := { text, isTruth := true }

def application (name : String) (ids : List Int) : String :=
  name ++ "(" ++ ", ".intercalate (ids.map toString) ++ ")"

private def between (a : Infix) (symbol : String) (b : Infix) : String :=
  "(" ++ a.text ++ " " ++ symbol ++ " " ++ b.text ++ ")"

private def require (c : Bool) (t : Infix) : Outcome Infix := if c then .ok t else .error .illSorted

/-- A negation; that of a negation is what it negates. -/
def not (a : Infix) : Outcome Infix :=
  match a.negated with
  | some inner => .ok (truth inner)
  | none => require a.isTruth { text := "(! " ++ a.text ++ ")", isTruth := true, negated := some a.text }

def iff (a b : Infix) : Outcome Infix := require (a.isTruth && b.isTruth) (truth (a.between "<->" b))

def equal (a b : Infix) : Outcome Infix :=
  if a.isTruth && b.isTruth then iff a b
  else require (!a.isTruth && !b.isTruth) (truth (a.between "=" b))

def compare (symbol : String) (a b : Infix) : Outcome Infix :=
  require (!a.isTruth && !b.isTruth) (truth (a.between symbol b))

/-- Several truth values; `unit` is what none of them is. -/
def several (symbol unit : String) : List Infix → Outcome Infix
  | [] => .ok (truth unit)
  | [a] => .ok a
  | as => require (as.all (·.isTruth)) (truth ("(" ++ (" " ++ symbol ++ " ").intercalate (as.map (·.text)) ++ ")"))

def choice (c a b : Infix) : Outcome Infix :=
  require (c.isTruth && a.isTruth == b.isTruth)
    { text := "(" ++ c.text ++ " ? " ++ a.text ++ " : " ++ b.text ++ ")", isTruth := a.isTruth }

/-- Numbers can be added, and divided by what is not a numeral. -/
def arith (op : Arith) (a b : Infix) : Outcome Infix :=
  match op with
  | .add => require (!a.isTruth && !b.isTruth) (number (a.between "+" b))
  | .div =>
    if b.isNumeral then .error (.unsupported none)
    else require (!a.isTruth && !b.isTruth) (number (a.between "/" b))
  | .sub | .mul => .error .wrongKind

end Infix

mutual

def infixForm : Term → Outcome Infix
  | cell t r c => .ok (.number (Infix.application "cell" [t, r, c]))
  | null t r c => .ok (.truth (Infix.application "null" [t, r, c]))
  | grouping t r g => .ok (.truth (Infix.application "grouping" [t, r, g]))
  | size t => .ok (.number (Infix.application "size" [t]))
  | and ts => do Infix.several "&" "True" (← infixForms ts)
  | or ts => do Infix.several "|" "False" (← infixForms ts)
  | xor a b => do (← Infix.iff (← infixForm a) (← infixForm b)).not
  | not a => do (← infixForm a).not
  | implies a b => do
    let (a, b) := (← infixForm a, ← infixForm b)
    if a.isTruth && b.isTruth then return .truth s!"({a.text} -> {b.text})" else .error .illSorted
  | ite c a b => do Infix.choice (← infixForm c) (← infixForm a) (← infixForm b)
  | cmp .gt a b => do
    let (a, b) := (← infixForm a, ← infixForm b)
    Infix.compare "<" b a
  | cmp .ge a b => do
    let (a, b) := (← infixForm a, ← infixForm b)
    Infix.compare "<=" b a
  | cmp .lt a b => do Infix.compare "<" (← infixForm a) (← infixForm b)
  | cmp .le a b => do Infix.compare "<=" (← infixForm a) (← infixForm b)
  | cmp .eq a b => do Infix.equal (← infixForm a) (← infixForm b)
  | cmp .ne a b => do (← Infix.equal (← infixForm a) (← infixForm b)).not
  | arith .add a b => do Infix.arith .add (← infixForm a) (← infixForm b)
  | arith .div a b => do Infix.arith .div (← infixForm a) (← infixForm b)
  | int (.int n) => .ok { text := toString n, isNumeral := true }
  | bool (.bool b) => .ok (.truth (if b then "True" else "False"))
  | int _ | bool _ => .error .illSorted
  | plain _ => .error .absentField
  | deleted _ _ | belongs _ _ | choice _ _ | neg _ | arith _ _ _ => .error .wrongKind

def infixForms : List Term → Outcome (List Infix)
  | [] => .ok []
  | t :: ts => do return (← infixForm t) :: (← infixForms ts)

end

end QueryEquiv.Term
