import QueryEquiv.Ast.Basic

/-!
# Tags of clauses

An encoding keeps what it knows of a clause under the tag of the clause. So before a tree is encoded
its clauses get tags that are not in use, and a copy of a tree gets tags of its own.
-/

namespace QueryEquiv.Node

/-- The next free tag, and which tag took the place of which. -/
structure Tagging where
  next : Nat
  renamed : List (Nat × Nat) := []

def freshTag (old : Nat) : StateM Tagging Nat :=
  modifyGet fun s ↦ (s.next, { next := s.next + 1, renamed := (old, s.next) :: s.renamed })

mutual

/-- Gives every clause of a tree a fresh tag. -/
def retag : Node → StateM Tagging Node
  | expression o args a => do return expression o (← retags args) a
  | caseWhen cs d a => do
    let cs ← retagCases cs
    return caseWhen cs (← retag d) a
  | ifThen c y n a => do
    let c ← retag c
    let y ← retag y
    return ifThen c y (← retag n) a
  | filter t p => do
    let t ← freshTag t
    return filter t (← retag p)
  | project t ts d => do
    let t ← freshTag t
    return project t (← retags ts) d
  | join t l r k cond shared => do
    let t ← freshTag t
    let l ← retag l
    let r ← retag r
    let cond ← retag cond
    return join t l r k cond (← retag shared)
  | groupBy t ks h => do
    let t ← freshTag t
    let ks ← retags ks
    return groupBy t ks (← retag h)
  | orderBy t ks os l => do
    let t ← freshTag t
    return orderBy t (← retags ks) os l
  | query t ws s f w g o a => do
    let t ← freshTag t
    let ws ← match ws with
      | none => pure none
      | some es => do pure (some (← retagWiths es))
    let s ← retag s
    let f ← retag f
    let w ← retag w
    let g ← retag g
    return query t ws s f w g (← retag o) a
  | union t qs k a => do
    let t ← freshTag t
    return union t (← retags qs) k a
  | mutated b a rule only => do
    let b ← retag b
    return mutated b (← retag a) rule only
  | list xs => do return list (← retags xs)
  | column n a => return column n a
  | literal v a => return literal v a
  | function n => return function n
  | operator n => return operator n
  | scan t a => return scan t a
  | raw v => return raw v

def retags : List Node → StateM Tagging (List Node)
  | [] => return []
  | n :: ns => do
    let n ← retag n
    return n :: (← retags ns)

def retagCases : List (Node × Node) → StateM Tagging (List (Node × Node))
  | [] => return []
  | (c, r) :: rest => do
    let c ← retag c
    let r ← retag r
    return (c, r) :: (← retagCases rest)

def retagWiths : List (Value × Node) → StateM Tagging (List (Value × Node))
  | [] => return []
  | (k, n) :: rest => do
    let n ← retag n
    return (k, n) :: (← retagWiths rest)

end

mutual

/-- The tree in which the given joins have a condition: truth, where they had none. -/
def complete (joins : List Nat) : Node → Node
  | expression o args a => expression o (completes joins args) a
  | caseWhen cs d a => caseWhen (completeCases joins cs) (complete joins d) a
  | ifThen c y n a => ifThen (complete joins c) (complete joins y) (complete joins n) a
  | filter t p => filter t (complete joins p)
  | project t ts d => project t (completes joins ts) d
  | join t l r k cond shared =>
    let cond := if cond.isMissing && joins.contains t then lit (.bool true) else complete joins cond
    join t (complete joins l) (complete joins r) k cond (complete joins shared)
  | groupBy t ks h => groupBy t (completes joins ks) (complete joins h)
  | orderBy t ks os l => orderBy t (completes joins ks) os l
  | query t ws s f w g o a =>
    let ws := match ws with
      | none => none
      | some es => some (completeWiths joins es)
    query t ws (complete joins s) (complete joins f) (complete joins w) (complete joins g)
      (complete joins o) a
  | union t qs k a => union t (completes joins qs) k a
  | mutated b a rule only => mutated (complete joins b) (complete joins a) rule only
  | list xs => list (completes joins xs)
  | n => n

def completes (joins : List Nat) : List Node → List Node
  | [] => []
  | n :: ns => complete joins n :: completes joins ns

def completeCases (joins : List Nat) : List (Node × Node) → List (Node × Node)
  | [] => []
  | (c, r) :: rest => (complete joins c, complete joins r) :: completeCases joins rest

def completeWiths (joins : List Nat) : List (Value × Node) → List (Value × Node)
  | [] => []
  | (k, n) :: rest => (k, complete joins n) :: completeWiths joins rest

end

end QueryEquiv.Node
