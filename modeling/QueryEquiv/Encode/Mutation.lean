import QueryEquiv.Encode.Query

/-!
# Queries beside their mutated forms

Encodes a query and a mutated form of it side by side. Only a table has two sides as it stands, namely
itself twice; every clause needs a single input and is refused where two stand. What is encoded before a
clause is refused stays encoded.
-/

namespace QueryEquiv.Mutation

open Workspace

/-- The table of a query, and that of its mutated form. -/
abbrev Sides := Nat × Nat

private def hasSize (tag : Nat) : Encoding Unit := do
  let label := (← clause tag).label
  let _ ← (← get).formulas.size label

mutual

def encode : Node → Encoding Sides
  | .query _ _ select source wh group _ _ => do
    let _ ← encode source
    if !wh.isMissing then do let _ ← encode wh
    if !group.isMissing then do let _ ← encode group
    encode select
  | .union tag queries _ _ => do
    encodeAll queries
    hasSize tag
    throw .wrongKind
  | .scan name byname => do
    let (t, _) ← (Query.encode Query.subquery none (.scan name byname)).run none
    return (t, t)
  | .join tag left right kind _ _ => do
    let _ ← encode left
    let _ ← encode right
    let _ ← Operator.Join.Kind.ofName kind
    hasSize tag
    throw .wrongKind
  | .groupBy tag _ _ | .orderBy tag _ _ _ => do
    hasSize tag
    throw .wrongKind
  | .mutated before after _ _ => do
    let _ ← encode before
    let _ ← encode after
    throw .unassigned
  | _ => throw .absentField

def encodeAll : List Node → Encoding Unit
  | [] => return
  | q :: qs => do
    let _ ← encode q
    encodeAll qs

end

end QueryEquiv.Mutation
