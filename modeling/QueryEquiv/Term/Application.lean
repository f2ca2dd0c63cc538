import QueryEquiv.Term

/-!
# Terms as applications

Another text of terms: the name of an operator before its arguments. Constants are not terms here: they are
compared on the spot, and a constant that is compared with a term goes to the right. Some terms are not
known; they are noted by the name of their kind and count as nothing.

A truth value that is compared with a number, or stands beside one, is taken as 1 or 0.
-/

namespace QueryEquiv.Term

/-- What a term becomes: an application, or a constant. -/
inductive Applied where
  | application (text : String) (isTruth : Bool)
  | constant (v : Value)

namespace Applied

def nothing : Applied := .constant .null

/-- The text of what a term becomes; nothing has none. -/
def text? : Applied → Option String
  | .application s _ => some s
  | .constant .null => none
  | .constant v => some v.repr

private def list (name : String) : List String → String
  | [] => name
  | args => "(" ++ name ++ " " ++ " ".intercalate args ++ ")"

def truth : Applied → Outcome String
  | .application s true => .ok s
  | .constant (.bool b) => .ok (if b then "true" else "false")
  | _ => .error .illSorted

def number : Applied → Outcome String
  | .application s false => .ok s
  | .application s true => .ok s!"(if {s} 1 0)"
  | .constant (.int n) => .ok (toString n)
  | .constant (.bool b) => .ok (if b then "1" else "0")
  | .constant (.str s) =>
    match Text.readInt? s with
    | some n => .ok (toString n)
    | none => .error .illSorted
  | .constant _ => .error .illSorted

private def isTruth : Applied → Bool
  | .application _ b => b
  | .constant (.bool _) => true
  | .constant _ => false

private def isConstant : Applied → Bool
  | .application _ _ => false
  | .constant _ => true

/-- Two arguments of one sort: truth values if both are, else numbers. A constant takes the sort of the
term beside it. -/
private def ofOneSort (a b : Applied) : Outcome (String × String × Bool) := do
  let asTruth := match a, b with
    | .application _ s, .application _ t => s && t
    | .application _ s, .constant _ | .constant _, .application _ s => s
    | _, _ => a.isTruth && b.isTruth
  if asTruth then return (← a.truth, ← b.truth, true)
  else return (← a.number, ← b.number, false)

def choice (c a b : Applied) : Outcome Applied := do
  let c ← c.truth
  let (x, y, isTruth) ← ofOneSort a b
  return .application (list "if" [c, x, y]) isTruth

def connective (name : String) (args : List Applied) : Outcome Applied := do
  return .application (list name (← args.mapM truth)) true

private def symbol : Comparison → String
  | .gt => ">"
  | .ge => ">="
  | .lt => "<"
  | .le => "<="
  | .eq => "="
  | .ne => "distinct"

/-- The comparison that holds when the sides are exchanged. -/
private def reflected : Comparison → Comparison
  | .gt => .lt
  | .ge => .le
  | .lt => .gt
  | .le => .ge
  | .eq => .eq
  | .ne => .ne

private def isEquation : Comparison → Bool
  | .eq | .ne => true
  | _ => false

/-- Compares a term with something. Nothing is equal to nothing else, and truth values have no order. -/
private def compareTerm (op : Comparison) (a b : Applied) : Outcome Applied :=
  match op, b with
  | .eq, .constant .null => .ok (.constant (.bool false))
  | .ne, .constant .null => .ok (.constant (.bool true))
  | _, _ =>
    if !isEquation op && a.isTruth then .error .wrongKind
    else do
      let (x, y, _) ← ofOneSort a b
      return .application (list (symbol op) [x, y]) true

def compare (op : Comparison) (a b : Applied) : Outcome Applied :=
  match a, b with
  | .constant v, .constant w => do return .constant (.bool (← Value.compare op v w))
  | .constant _, b => compareTerm (reflected op) b a
  | a, b =>
    if !isEquation op && a.isTruth && !b.isConstant then compareTerm (reflected op) b a
    else compareTerm op a b

end Applied

/-- The kinds of terms that were not known, beside what a term becomes. -/
abbrev Applying := StateT (List String) Outcome

private def unknown (kind : String) : Applying Applied := do
  modify (· ++ [s!"<class 'polygon.smt.ast.{kind}'>"])
  return .nothing

private def leafOf (name : String) (ids : List Int) (isTruth : Bool) : Applying Applied :=
  return .application ("(" ++ " ".intercalate (name :: ids.map toString) ++ ")") isTruth

private def Arith.kindName : Arith → String
  | .add => "Plus"
  | .sub => "Minus"
  | .mul => "Mul"
  | .div => "Div"

mutual

def applied : Term → Applying Applied
  | cell t r c => leafOf "cell" [t, r, c] false
  | null t r c => leafOf "null" [t, r, c] true
  | size t => leafOf "size" [t] false
  | and ts => do Applied.connective "and" (← applieds ts)
  | or ts => do Applied.connective "or" (← applieds ts)
  | xor a b => do
    let args := [← applied a, ← applied b]
    Applied.connective "xor" args
  | not a => do Applied.connective "not" [← applied a]
  | implies a b => do
    let args := [← applied a, ← applied b]
    Applied.connective "=>" args
  | ite c a b => do Applied.choice (← applied c) (← applied a) (← applied b)
  | cmp op a b => do Applied.compare op (← applied a) (← applied b)
  | int v => return .constant v
  | grouping _ _ _ => unknown "SMTGrouping"
  | deleted _ _ => unknown "Deleted"
  | belongs _ _ => unknown "SMTBelongsToGroup"
  | choice _ _ => unknown "Choice"
  | arith op _ _ => unknown (Arith.kindName op)
  | neg _ => unknown "Neg"
  | bool _ => unknown "Bool"
  | plain _ => throw .absentField

def applieds : List Term → Applying (List Applied)
  | [] => return []
  | t :: ts => do return (← applied t) :: (← applieds ts)

end

end QueryEquiv.Term
