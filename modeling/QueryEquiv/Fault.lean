/-!
# Faults

Why a request cannot be carried out. Queries, schemas and constraints arrive as untyped trees, so
most faults say which expectation about a tree was not met; the others belong to one stage of the
work and carry the text that is reported.
-/

namespace QueryEquiv

inductive Fault where
  /-- A tree or a table of names has no entry under the key asked for. -/
  | absentKey
  /-- A value is not of the kind an operation is defined on. -/
  | wrongKind
  /-- A thing has no field, or no reading, of the name asked for. -/
  | absentField
  /-- A position lies outside a list. -/
  | outOfRange
  /-- A value is of the right kind but has no meaning here. -/
  | badValue
  /-- A condition that the encoding relies on does not hold. -/
  | broken
  /-- The first of no elements was asked for. -/
  | exhausted
  /-- A quantity that the surrounding computation was to fix was never fixed. -/
  | unassigned
  /-- A quantity that this computation was to fix was never fixed. -/
  | unassignedHere
  | divisionByZero
  | overflow
  /-- Nesting is deeper than is followed. -/
  | tooDeep
  /-- A construct outside the supported language. -/
  | unsupported (what : Option String)
  /-- A name that nothing answers to. -/
  | unresolved (message : String)
  /-- Query text that cannot be read. -/
  | unreadable (message : String)
  /-- The solver gave no usable reply. -/
  | solver (message : String)
  /-- Terms of the wrong sorts were put together. -/
  | illSorted
  /-- A conjunction with a part that has no text in a script. -/
  | unprintable
  /-- A helper outside gave no answer. -/
  | unanswered
  | fileMissing
  /-- Constraint text that no constraint can start with or go on with. -/
  | unexpectedCharacter
  /-- Constraint text that stops in the middle. -/
  | unexpectedEnd
  /-- Constraint text that is well formed and has no meaning, and why. -/
  | meaningless (cause : Fault)
  /-- A statement that the database refused. -/
  | refused
  deriving Repr, DecidableEq, Inhabited

namespace Fault

/-- The report on query text that cannot be read. -/
def ofQueryText (query : String) : Fault :=
  unreadable ("ParserSyntaxError: cannot parse " ++ "\x60" ++ query ++ "\x60")

/-- The report on a failed solver, with what it said if it said something. -/
def solverMessage : Option String → String
  | none => "SMTSolverError"
  | some said => "SMTSolverError: \x60" ++ said ++ "\x60"

end Fault

/-- The result of a computation that may be refused. -/
abbrev Outcome := Except Fault

end QueryEquiv
