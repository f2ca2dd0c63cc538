import QueryEquiv.QueryText
import QueryEquiv.Search.Report
import QueryEquiv.Workspace

/-!
# The solver

A solver is asked by a script and answers by lines. Every check starts a solver of its own, which is given
the whole script. It first prints its verdict, and then answers questions: for the assertions that
contradict each other, or for the values of terms in the model that it found.

What the solvers are going to say is part of the state, one reply for each check to come; so is a record
of what was said.
-/

namespace QueryEquiv

/-- What a solver says: the lines of its verdict, the contradicting assertions, and the values of
terms, by term or by the function at its head. -/
structure SolverReply where
  lines : List String
  core : List String := []
  values : List (String × String) := []
  defaults : List (String × String) := []

/-- One check: how the solver was started, what it was sent, and what was said since. A solver without a
reply says nothing. -/
structure SolverExchange where
  options : List String
  script : String
  asserted : List (String × Term)
  reply : Option SolverReply
  /-- The lines that are printed and not read yet. -/
  unread : List String
  /-- The terms whose values were asked for. -/
  asked : List String := []

/-- The replies to come, and the checks so far. -/
structure Solvers where
  replies : List SolverReply := []
  exchanges : Array SolverExchange := #[]

/-- What one user of solvers knows: its options, its last check, and the contradicting assertions that it
was last told. -/
structure Prover where
  options : List String
  exchange : Option Nat := none
  core : Option (List String) := none

namespace Solvers

def scriptOf (assertions : String) : String :=
  "\n(set-logic QF_UFNIA)\n(set-option :produce-models true)\n(set-option :produce-unsat-cores true)\n" ++
  "(set-option :smt.arith.solver 2)\n(set-option :smt.arith.random_initial_value true)\n" ++
  "(set-option :smt.phase_selection 2)\n\n(declare-fun cell (Int Int Int) Int)\n" ++
  "(declare-fun null (Int Int Int) Bool)\n(declare-fun grouping (Int Int Int) Bool)\n" ++
  "(declare-fun deleted (Int Int) Bool)\n(declare-fun choice (Int Int) Int)\n" ++
  "(declare-fun size (Int) Int)\n\n(declare-fun belongstogroup (Int Int) Bool)\n\n" ++
  assertions ++ "\n\n(check-sat)\n        "

/-- The reply to the question for contradicting assertions. -/
def coreLine (r : SolverReply) : String := "(" ++ " ".intercalate r.core ++ ")"

def valueLine (r : SolverReply) (f : String) (args : List Int) : String :=
  let term := " ".intercalate (f :: args.map toString)
  match r.values.lookup term with
  | some v => v
  | none => (r.defaults.lookup f).getD ("(" ++ term ++ ")")

def words (s : String) : List String :=
  let pieces := s.toList.splitBy fun a b ↦ Text.isBlank a == Text.isBlank b
  (pieces.filter fun p ↦ !(p.any Text.isBlank)).map String.ofList

/-- A text without blanks at its ends. -/
def trimmed (s : String) : String := String.ofList (Text.trim s.toList)

/-- A text without its first and its last character. -/
def inner (s : String) : String := String.ofList ((s.toList.drop 1).dropLast)

end Solvers

/-! ## Computations that ask solvers -/

/-- What a computation that asks solvers works on: the workspace, the parser of query text and the solvers,
the report on the search, and the lines that are shown. -/
structure Asking where
  workspace : Workspace
  library : Library := {}
  solvers : Solvers := {}
  report : Search.Report := {}
  shown : List String := []

/-- A computation in a workspace that can ask solvers. -/
abbrev Inquiry := ExceptT Fault (StateM Asking)

namespace Inquiry

def encoding {α : Type} (x : Encoding α) : Inquiry α := do
  let s ← get
  let (r, workspace) := x.run.run s.workspace
  set { s with workspace }
  match r with
  | .ok a => return a
  | .error f => throw f

/-- A dialogue with the parser of query text. -/
def dialogue {α : Type} (x : Library.Dialogue α) : Inquiry α := do
  let s ← get
  let (r, library) := x.run.run s.library
  set { s with library }
  match r with
  | .ok a => return a
  | .error f => throw f

def workspace : Inquiry Workspace := do return (← get).workspace

def formulas : Inquiry Formulas := do return (← get).workspace.formulas

def note (level : Level) (text : String) : Inquiry Unit := encoding (Workspace.note level text)

def record (f : Search.Report → Search.Report) : Inquiry Unit :=
  modify fun a ↦ { a with report := f a.report }

def display (line : String) : Inquiry Unit := modify fun a ↦ { a with shown := a.shown ++ [line] }

def failed {α : Type} : Inquiry α := do
  note .error "solver"
  throw (.solver (Fault.solverMessage none))

def nextLine (i : Nat) : Inquiry (Option String) := do
  let s := (← get).solvers
  match s.exchanges[i]? with
  | some e =>
    match e.unread with
    | l :: ls => do
      modify fun a ↦
        { a with solvers := { s with exchanges := s.exchanges.set! i { e with unread := ls } } }
      return some l
    | [] => return none
  | none => return none

def print (i : Nat) (asked : List String) (line : SolverReply → String) : Inquiry Unit :=
  modify fun a ↦
    { a with solvers := { a.solvers with exchanges := a.solvers.exchanges.modify i fun e ↦
        match e.reply with
        | some r => { e with unread := e.unread ++ [line r], asked := e.asked ++ asked }
        | none => e } }

def start (p : Prover) (script : String) (asserted : List (String × Term)) : Inquiry (Nat × Bool) := do
  let s := (← get).solvers
  let i := s.exchanges.size
  let (reply, replies) := match s.replies with
    | r :: rs => (some r, rs)
    | [] => (none, [])
  let e : SolverExchange :=
    { options := p.options, script, asserted, reply, unread := (reply.map (·.lines)).getD [] }
  modify ({ · with solvers := { replies, exchanges := s.exchanges.push e } })
  return (i, reply.isSome)

/-- Reads lines up to the verdict. A line that tells of an error is a failure, and so is a missing one; a
warning is noted. -/
def verdict (i : Nat) : Nat → Inquiry Bool
  | 0 => failed
  | fuel + 1 => do
    match ← nextLine i with
    | none => failed
    | some line =>
      let state := Solvers.trimmed line
      if state == "sat" then return true
      else if state == "unsat" then return false
      else
        let low := Text.lower state
        if Text.occursIn "error" low || Text.occursIn "unsupported" low then failed
        else
          if Text.occursIn "warning" low then note .warning s!"Solver msg: {state}"
          verdict i fuel

/-- Checks assertions, given as text and as terms: whether they have a model. If they have none, the
prover is told which contradict each other. -/
def check (p : Prover) (assertions : String) (asserted : List (String × Term)) :
    Inquiry (Bool × Prover) := do
  let (i, live) ← start p (Solvers.scriptOf assertions) asserted
  let p := { p with exchange := some i }
  if !live then failed
  let lines := match (← get).solvers.exchanges[i]? with
    | some e => e.unread.length
    | none => 0
  if ← verdict i (lines + 1) then return (true, p)
  else
    print i [] Solvers.coreLine
    match ← nextLine i with
    | none => failed
    | some line =>
      let core := Solvers.words (Solvers.inner (Solvers.trimmed line))
      return (false, { p with core := if core.isEmpty then none else some core })

/-- A negative number is printed as an application. -/
def plainNumber (s : String) : String :=
  match s.toList with
  | '(' :: '-' :: _ => "-" ++ String.ofList (s.toList.drop 3).dropLast
  | _ => s

def trimEnd (s : String) : String :=
  String.ofList (s.toList.reverse.dropWhile Text.isBlank).reverse

/-- The value of a function at numbers in the model of the last check. -/
def value (p : Prover) (f : String) (args : List Int) : Inquiry String := do
  match p.exchange with
  | none => throw .absentField
  | some i =>
    print i [" ".intercalate (f :: args.map toString)] fun r ↦ Solvers.valueLine r f args
    match ← nextLine i with
    | some line => return plainNumber (trimEnd line)
    | none => throw .unanswered

end Inquiry

end QueryEquiv
