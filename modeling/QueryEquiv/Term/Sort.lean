import QueryEquiv.Term

/-!
# Sorts

Whether a term stands for a number or for a truth value. The terms that say which group a result
belongs to have no declared sort, a choice between two terms has one only if both agree, and a plain
value is no term and has none to ask for.
-/

namespace QueryEquiv

inductive Kind where
  | number
  | truth
  deriving DecidableEq, Repr

def Kind.text : Kind → String
  | number => "Int"
  | truth => "Bool"

namespace Term

def kind : Term → Outcome (Option Kind)
  | cell .. | size _ | choice .. | arith .. | neg _ | int _ => .ok (some .number)
  | null .. | grouping .. | deleted .. | and _ | or _ | xor .. | not _ | implies .. | cmp .. | bool _ =>
    .ok (some .truth)
  | belongs .. => .ok none
  | ite _ a b => do
    let k ← a.kind
    if k = (← b.kind) then return k else .error .broken
  | plain _ => .error .absentField

/-- A number for a term: a truth value counts one or zero. -/
def ensureNumber (t : Term) : Outcome Term := do
  if (← t.kind) = some .truth then return indicator t else return t

/-- A truth value for a term: a number holds if it is not zero. -/
def ensureTruth (t : Term) : Outcome Term := do
  if (← t.kind) = some .number then return ne t zero else return t

end Term

end QueryEquiv
