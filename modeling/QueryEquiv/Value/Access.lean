import QueryEquiv.Value
import QueryEquiv.Text.Pattern

/-!
# Looking into values

Asking a value for its parts without knowing its kind. An object is asked for its keys, a list for
its members and a text for the texts inside it; a value without parts refuses every question.
-/

namespace QueryEquiv.Value

/-- Whether a key, a member or a part is there. -/
def has (key : String) : Value → Outcome Bool
  | object es => .ok (es.any (·.1 == key))
  | list xs => .ok (xs.any fun x ↦ x.same (str key))
  | str s => .ok (Text.occursIn key s)
  | _ => .error .wrongKind

def entry (key : String) : Value → Outcome Value
  | object es =>
    match lookup key es with
    | some v => .ok v
    | none => .error .absentKey
  | _ => .error .wrongKind

def member (i : Nat) : Value → Outcome Value
  | list xs =>
    match xs[i]? with
    | some v => .ok v
    | none => .error .outOfRange
  | str s =>
    match s.toList[i]? with
    | some c => .ok (str c.toString)
    | none => .error .outOfRange
  | object _ => .error .absentKey
  | _ => .error .wrongKind

/-- The members in order: of an object its keys, of a text its characters. -/
def members : Value → Outcome (List Value)
  | list xs => .ok xs
  | object es => .ok (es.map fun e ↦ str e.1)
  | str s => .ok (s.toList.map fun c ↦ str c.toString)
  | _ => .error .wrongKind

/-- The number of members. -/
def count : Value → Outcome Nat
  | list xs => .ok xs.length
  | object es => .ok es.length
  | str s => .ok s.length
  | _ => .error .wrongKind

/-- The levels of nesting of a value. -/
def depth : Value → Nat
  | list xs => depths xs + 1
  | object es => entryDepths es + 1
  | _ => 0
where
  depths : List Value → Nat
    | [] => 0
    | v :: vs => max (depth v) (depths vs)
  entryDepths : List (String × Value) → Nat
    | [] => 0
    | (_, v) :: es => max (depth v) (entryDepths es)

/-- Something that can be a key. -/
def isKey : Value → Bool
  | list _ | object _ => false
  | _ => true

end QueryEquiv.Value
