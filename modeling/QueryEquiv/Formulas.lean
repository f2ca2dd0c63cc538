import QueryEquiv.Term.Script

/-!
# Labelled formulas

An encoding is a list of formulas under labels. A formula that is added under a label in use joins
the one that is there. Each entry carries a stamp that tells when it was last set.

Beside them stands what the search for a counterexample keeps: which tables belong to which label,
the choices that are currently fixed, the labels that are considered, and the conflicts learned.
-/

namespace QueryEquiv

/-- A choice for one row: left open, or fixed to a number. -/
inductive Bit where
  | free
  | fixed (v : Value)

namespace Bit

/-- An open choice is written `T`. -/
def ofValue : Value → Bit
  | .str "T" => free
  | v => fixed v

def value : Bit → Value
  | free => .str "T"
  | fixed v => v

def same (a b : Bit) : Bool := a.value.same b.value

end Bit

/-- The choices for the rows of a table. -/
abbrev Choices := List Bit

namespace Choices

/-- The choices that are fixed, as conditions on the choices of a table. -/
def conditions (table : Int) (vec : Choices) : List Term :=
  vec.zipIdx.filterMap fun (b, i) ↦
    match b with
    | .free => none
    | .fixed v => some (.eq (.choice table i) (.int v))

def text (vec : Choices) : String := (Value.list (vec.map Bit.value)).repr

end Choices

/-- The labels that are considered: a set that grows, or a list that is fixed. -/
inductive Considered where
  | set (labels : List String)
  | list (labels : List String)

namespace Considered

def labels : Considered → List String
  | set ls => ls
  | list ls => ls

def contains (c : Considered) (label : String) : Bool := c.labels.contains label

/-- Only a set can grow. -/
def add (label : String) : Considered → Outcome Considered
  | set ls => .ok (set (if ls.contains label then ls else ls ++ [label]))
  | list _ => .error .absentField

end Considered

structure Formula where
  label : String
  term : Term
  stamp : Nat

structure Formulas where
  entries : List Formula := []
  nextStamp : Nat := 0
  /-- The number of labels made up so far. -/
  unnamed : Nat := 0
  /-- The labels given to clauses, and their number. -/
  clauses : List String := []
  clauseCount : Nat := 0
  timeout : Value := .int 120
  /-- The table that each label is about. -/
  tableOf : Option (List (Option String × Int)) := none
  /-- The choices that are currently fixed. -/
  under : List (Int × Choices) := []
  considered : Considered := .set []
  /-- The full table of each table that is cut down to fewer rows. -/
  fullTable : List (Int × Int) := []
  /-- The number of rows to cut down to, by label. -/
  sizes : List (String × Value) := []
  /-- The script texts of formulas that are not going to change. -/
  written : List (String × String) := []
  conflicts : List (String × Term) := []
  conflictCount : Nat := 0

namespace Formulas

/-- Puts a value under a key, in the place of the old value if there is one. -/
def put {κ α : Type} [BEq κ] (key : κ) (a : α) : List (κ × α) → List (κ × α)
  | [] => [(key, a)]
  | (k, b) :: rest => if k == key then (k, a) :: rest else (k, b) :: put key a rest

def find? (fs : Formulas) (label : String) : Option Term :=
  (fs.entries.find? (·.label == label)).map (·.term)

def labels (fs : Formulas) : List String := fs.entries.map (·.label)

def replace (f : Formula) : List Formula → List Formula
  | [] => [f]
  | g :: gs => if g.label == f.label then f :: gs else g :: replace f gs

def set (fs : Formulas) (label : String) (t : Term) : Formulas :=
  { fs with entries := replace ⟨label, t, fs.nextStamp⟩ fs.entries, nextStamp := fs.nextStamp + 1 }

def erase (fs : Formulas) (label : String) : Formulas :=
  { fs with entries := fs.entries.filter (·.label != label) }

/-- Adds a formula to what stands under a label; without a label, one is made up. -/
def append (fs : Formulas) (t : Term) (label : Option String) : Formulas :=
  match label with
  | some l =>
    match fs.find? l with
    | some old => fs.set l (.and [old, t])
    | none => fs.set l t
  | none =>
    let l := s!"f_{fs.unnamed}"
    let fs := { fs with unnamed := fs.unnamed + 1 }
    match fs.find? l with
    | some old => fs.set l (.and [old, t])
    | none => fs.set l t

def nextClause (fs : Formulas) : Nat × Formulas :=
  (fs.clauseCount + 1, { fs with clauseCount := fs.clauseCount + 1 })

def register (fs : Formulas) (label : String) : Formulas :=
  if fs.clauses.contains label then fs else { fs with clauses := fs.clauses ++ [label] }

def setSize (fs : Formulas) (label : String) (k : Value) : Formulas :=
  { fs with sizes := put label k fs.sizes }

/-- The number of rows to cut down to for a clause. -/
def size (fs : Formulas) (label : Option String) : Outcome Value :=
  match label.bind (fs.sizes.lookup ·) with
  | some k => .ok k
  | none => .error .absentKey

end Formulas

end QueryEquiv
