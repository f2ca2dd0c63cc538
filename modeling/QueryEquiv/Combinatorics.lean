import QueryEquiv.Fault

/-!
# Choices from finite lists

Sublists of a given length, tuples from several lists, groupings of a list into blocks, and the cut
of a list into pieces of nearly equal length. Sublists and tuples come in lexicographic order of
positions, which fixes the order of everything that is enumerated from them.
-/

namespace QueryEquiv.Combinatorics

variable {α : Type}

/-- The sublists with `n` elements, in lexicographic order of positions. -/
def choose : Nat → List α → List (List α)
  | 0, _ => [[]]
  | _ + 1, [] => []
  | n + 1, x :: xs => (choose n xs).map (x :: ·) ++ choose (n + 1) xs

/-- All ways to take one element of each list; the last list varies fastest. -/
def tuples : List (List α) → List (List α)
  | [] => [[]]
  | xs :: rest => xs.flatMap fun x ↦ (tuples rest).map (x :: ·)

/-! ## Groupings -/

/-- Ways to split a list into `n` blocks. The first block runs over the sublists that leave something
out, and the rest is split into `n - 1`; so a grouping comes in several orders. -/
def groupings [BEq α] : Nat → List α → Int → List (List (List α))
  | 0, _, _ => []
  | fuel + 1, xs, n =>
    if n = 1 then [[xs]]
    else if n = xs.length then [xs.map ([·])]
    else if n > xs.length then []
    else
      (List.range (xs.length - 1)).flatMap fun i ↦
        (choose (i + 1) xs).flatMap fun block ↦
          (groupings fuel (xs.filter fun x ↦ !block.contains x) (n - 1)).map (block :: ·)

def sameBlocks [BEq α] (g h : List (List α)) : Bool :=
  g.all h.contains && h.all g.contains

/-- A grouping of some elements, with the pairs that it keeps apart. -/
structure Grouping (α : Type) where
  blocks : List (List α)
  apart : List (α × α)

/-- The pairs of a member of a block with an element outside of it. -/
def apart [BEq α] (xs : List α) (blocks : List (List α)) : List (α × α) :=
  blocks.flatMap fun block ↦ block.flatMap fun x ↦
    (xs.filter fun y ↦ y != x && !block.contains y).map ((x, ·))

/-- The groupings of a list into `n` blocks, each once, whatever the order of its blocks. -/
def partitions [BEq α] (xs : List α) (n : Int) : List (Grouping α) :=
  let all := (groupings (xs.length + 1) xs n).map List.eraseDups
  (all.eraseDupsBy sameBlocks).map fun g ↦ ⟨g, apart xs g⟩

/-! ## Cutting -/

/-- Cuts a list into `n` consecutive pieces whose lengths differ by at most one, the longer first. -/
def chunks (xs : List α) (n : Int) : Outcome (List (List α)) :=
  if n = 0 then .error .divisionByZero
  else
    let n := n.toNat
    let size := xs.length / n
    let extra := xs.length % n
    let start (i : Nat) : Nat := i * size + min i extra
    .ok <| (List.range n).map fun i ↦ (xs.take (start (i + 1))).drop (start i)

/-- The numbers of rows that tables of the given bounds can have, where their product is at most
`bound`. -/
def sizesWithin (bounds : List Int) (bound : Int) : List (List Int) :=
  (tuples (bounds.map fun b ↦ (List.range (b + 1).toNat).map Int.ofNat)).filter fun sizes ↦
    sizes.foldl (· * ·) 1 ≤ bound

end QueryEquiv.Combinatorics
