import QueryEquiv.Term

/-!
# Terms in solver scripts

The text of a term in the language of the solver. A number stands for itself, so a bare number has
a value rather than a text. Inside a conjunction a number counts as the truth of its being non-zero;
inside a disjunction it has no text. An empty conjunction and an empty disjunction are both written
`true`.
-/

namespace QueryEquiv

def Comparison.script : Comparison → String
  | gt => ">"
  | ge => ">="
  | lt => "<"
  | le => "<="
  | eq => "="
  | ne => "="

def Arith.script : Arith → String
  | add => "+"
  | sub => "-"
  | mul => "*"
  | div => "div"

namespace Term

private def leaf (acc name : String) (ids : List Int) : String :=
  ids.foldl (fun s i ↦ s ++ " " ++ toString i) (acc ++ "(" ++ name) ++ ")"

mutual

/-- Appends the text of a term to `acc`. -/
def write (acc : String) : Term → Outcome String
  | cell t r c => .ok (leaf acc "cell" [t, r, c])
  | null t r c => .ok (leaf acc "null" [t, r, c])
  | grouping t r g => .ok (leaf acc "grouping" [t, r, g])
  | deleted t r => .ok (leaf acc "deleted" [t, r])
  | belongs q g => .ok (leaf acc "belongstogroup" [q, g])
  | size t => .ok (leaf acc "size" [t])
  | choice t b => .ok (leaf acc "choice" [t, b])
  | and [] => .ok (acc ++ "true")
  | and ts => do
    let (acc, printable) ← writeConjuncts (acc ++ "(and") true ts
    if printable then return acc ++ ")" else .error .unprintable
  | or [] => .ok (acc ++ "true")
  | or ts => do
    let (acc, printable) ← writeDisjuncts (acc ++ "(or") true ts
    if printable then return acc ++ ")" else .error .wrongKind
  | xor a b => do
    let acc ← write (acc ++ "(xor ") a
    let acc ← write (acc ++ " ") b
    return acc ++ ")"
  | not a => do
    let acc ← write (acc ++ "(not ") a
    return acc ++ ")"
  | implies a b => do
    let acc ← write (acc ++ "(=> ") a
    let acc ← write (acc ++ " ") b
    return acc ++ ")"
  | ite c a b => do
    let acc ← write (acc ++ "(ite ") c
    let acc ← write (acc ++ " ") a
    let acc ← write (acc ++ " ") b
    return acc ++ ")"
  | cmp op a b => do
    let acc ← write (acc ++ (if op = .ne then "(not (" else "(") ++ op.script ++ " ") a
    let acc ← write (acc ++ " ") b
    return acc ++ if op = .ne then "))" else ")"
  | arith op a b => do
    let acc ← write (acc ++ "(" ++ op.script ++ " ") a
    let acc ← write (acc ++ " ") b
    return acc ++ ")"
  | neg a => do
    let acc ← write (acc ++ "(- ") a
    return acc ++ ")"
  | int v => .ok (acc ++ v.text)
  | bool v => .ok (acc ++ if v.truthy then "true" else "false")
  | plain _ => .error .absentField

/-- The parts of a conjunction, each after a blank, and whether all of them have a text. -/
def writeConjuncts (acc : String) (printable : Bool) : List Term → Outcome (String × Bool)
  | [] => .ok (acc, printable)
  | t :: ts =>
    match t with
    | int v =>
      if v.isZero then writeConjuncts (acc ++ " false") printable ts
      else
        match v with
        | .int _ | .bool _ => writeConjuncts (acc ++ " true") printable ts
        | .str s => writeConjuncts (acc ++ " " ++ s) printable ts
        | _ => writeConjuncts acc false ts
    | t => do
      let acc ← write (acc ++ " ") t
      writeConjuncts acc printable ts

/-- The parts of a disjunction, each after a blank, and whether all of them have a text. -/
def writeDisjuncts (acc : String) (printable : Bool) : List Term → Outcome (String × Bool)
  | [] => .ok (acc, printable)
  | t :: ts =>
    match t with
    | int (.str s) => writeDisjuncts (acc ++ " " ++ s) printable ts
    | int _ => writeDisjuncts acc false ts
    | t => do
      let acc ← write (acc ++ " ") t
      writeDisjuncts acc printable ts

end

/-- What a term is in a script: a bare number is its value, any other term is a text. -/
def script : Term → Outcome Value
  | int v => .ok v
  | t => do return .str (← write "" t)

def scriptText (t : Term) : Outcome String := do return (← t.script).text

end Term

end QueryEquiv
