import QueryEquiv.Term

/-!
# Decisions about rows

An operator decides row by row what becomes of its input, and writes the decision down as a choice:
one to keep a row, zero to drop it. What justifies a decision, and what follows from it for the
result, is a formula for each of the two.

A result that may have more rows than are wanted is compacted: the rows that are there move, in order,
into the first rows of a smaller table.
-/

namespace QueryEquiv.Operator

def kept (table : Int) (row : Nat) : Term := .eq (.choice table row) .one

def dropped (table : Int) (row : Nat) : Term := .eq (.choice table row) .zero

def decided (table : Int) (row : Nat) : Term := .or [kept table row, dropped table row]

def absent (table : Int) (row : Nat) : Term := .deleted table row

def present (table : Int) (row : Nat) : Term := .not (.deleted table row)

def allDecided (table : Int) (rows : Nat) : List Term := (List.range rows).map (decided table)

def presence (table : Int) (row : Nat) : Term := .ite (.deleted table row) .zero .one

/-- A condition is not met: it is null, or false. -/
def unmet (val null : Term) : Term := .or [null, .and [.not null, .not val]]

/-! ## Compaction -/

/-- How the rows of a table move into a smaller one. -/
structure Compaction where
  /-- The table, and the smaller one. -/
  full : Int
  cut : Int
  /-- The number of rows of the table, and of the smaller one. -/
  rows : Nat
  slots : Nat
  /-- One if a row is there, else zero. -/
  weight : Nat → Term
  /-- A row is there. -/
  counts : Nat → Term
  /-- For a slot and a row, what says that the row is in the slot. -/
  copies : Nat → Nat → List Term

namespace Compaction

/-- The number of rows that are there. -/
def size (c : Compaction) : Term := .sum ((List.range c.rows).map c.weight)

/-- As many rows are there before a row. -/
def rank (c : Compaction) (row : Nat) : Term := .sum ((List.range row).map c.weight)

/-- A row goes into a slot if it is there and as many rows are there before it as slots are. -/
def moves (c : Compaction) (slot row : Nat) : Term :=
  .implies (.and [c.counts row, .eq (c.rank row) (.nat slot)]) (.and (c.copies slot row))

/-- A slot is filled if there are rows enough, and otherwise empty. -/
def slotCases (c : Compaction) (slot : Nat) : List Term :=
  let filled := Term.ge c.size (.nat (slot + 1))
  [.implies filled (.and [present c.cut slot, .and ((List.range c.rows).map (c.moves slot))]),
    .implies (.not filled) (absent c.cut slot)]

def cases (c : Compaction) : List Term := (List.range c.slots).flatMap c.slotCases

/-- The rows that are there fit into the smaller table. -/
def fits (c : Compaction) (k : Value) : Term := .le c.size (.int k)

end Compaction

end QueryEquiv.Operator
