import QueryEquiv.Workspace

/-!
# The script of a search

The assertions that a solver is given: the formulas of the clauses that are considered, all formulas
that belong to no clause, and the conflicts learned. Each is named by its label, so that a solver can say
which of them contradict each other.

The text of a formula that belongs to a clause, a table or the goal is kept when it is first written.
-/

namespace QueryEquiv.Search

/-- The labels of clauses have a number after a dollar sign. -/
def ofClause (label : String) : Bool := Text.occursIn "$" label

/-- Whether the text under a label is kept. -/
def isKept (label : String) : Bool :=
  ofClause label || Text.occursIn "scan" label || ["ic", "neq", "disambiguation"].contains label

def assertion (label text : String) : String := s!"\n(assert (! {text} :named {label}))"

/-- The text of a formula, or the one that is kept under its label. -/
def formulaText (f : Formula) : Encoding String := do
  if isKept f.label then
    match (← get).formulas.written.lookup f.label with
    | some text => return text
    | none =>
      let text ← f.term.scriptText
      Workspace.changeFormulas fun fs ↦ { fs with written := fs.written ++ [(f.label, text)] }
      return text
  else f.term.scriptText

def asserted (fs : Formulas) : List Formula :=
  fs.entries.filter fun f ↦ !ofClause f.label || fs.considered.contains f.label

def assertions (fs : Formulas) : List (String × Term) :=
  (asserted fs).map (fun f ↦ (f.label, f.term)) ++ fs.conflicts

/-- The text of the assertions. -/
def script : Encoding String := do
  let fs := (← get).formulas
  let formulas ← (asserted fs).mapM fun f ↦ do return assertion f.label (← formulaText f)
  let conflicts ← fs.conflicts.mapM fun (name, t) ↦ do return assertion name (← t.scriptText)
  return String.join (formulas ++ conflicts)

end QueryEquiv.Search
