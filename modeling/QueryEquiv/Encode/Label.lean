import QueryEquiv.Operator.Join
import QueryEquiv.Workspace

/-!
# Labels of clauses

Before a query is encoded its clauses get labels, in the order in which they are carried out. The
formulas of a clause stand under its label, and the number of rows that its result is cut down to is
looked up by it.
-/

namespace QueryEquiv.Labels

open Workspace

/-- The label of a clause, which is numbered. -/
def numbered (name : String) : Encoding (String × Nat) := do
  let (n, formulas) := (← get).formulas.nextClause
  modify ({ · with formulas })
  return (s!"{name}${n}", n)

def register (label : String) : Encoding Unit := changeFormulas (·.register label)

def setSize (label : String) (k : Value) : Encoding Unit := changeFormulas (·.setSize label k)

/-- The number of rows that results of a kind of clause are cut down to. -/
def sizeFor (kind : String) : Encoding Value := do (← get).sizes.entry kind

/-- A clause gets a label of a name, and the size for a kind. -/
def assign (tag : Nat) (name kind : String) : Encoding Nat := do
  let (label, n) ← numbered name
  changeClause tag ({ · with label := some label })
  register label
  setSize label (← sizeFor kind)
  return n

/-- A clause that eliminates duplicates has a second label. -/
def assignDistinct (tag n : Nat) : Encoding Unit := do
  let label := s!"distinct${n}"
  changeClause tag ({ · with distinct := some label })
  register label

def joinNames : Operator.Join.Kind → String × String
  | .inner => ("inner_join", "inner join")
  | .left => ("left_join", "left join")
  | .right => ("right_join", "right join")
  | .full => ("full_join", "full join")
  | .product => ("product", "product")

mutual

/-- Gives labels to the clauses of a query. -/
def prepare : Node → Encoding Unit
  | .query _ withs select source wh group order _ => do
    match withs with
    | none => pure ()
    | some ws => prepareWiths ws
    prepare source
    if !wh.isMissing then prepare wh
    if !group.isMissing then prepare group
    prepare select
    if !order.isMissing then prepare order
  | .union tag queries keeps _ => do
    prepareAll queries
    let n ← assign tag "union" "union"
    if !keeps.truthy then assignDistinct tag n
  | .scan t _ => do
    let _ ← lowered t
  | .join tag left right kind _ _ => do
    prepare left
    prepare right
    let (name, size) := joinNames (← Operator.Join.Kind.ofName kind)
    let (label, _) ← numbered name
    let k ← sizeFor size
    changeClause tag ({ · with label := some label })
    register label
    setSize label k
  | .groupBy tag _ _ => do
    let (label, _) ← numbered "group_by"
    changeClause tag ({ · with label := some label })
    register label
    setSize label (.list [.int 4, .int 10])
  | .filter tag _ => do
    let _ ← assign tag "filter" "filter"
  | .project tag _ distinct => do
    let n ← assign tag "project" "project"
    if distinct.truthy then assignDistinct tag n
  | .orderBy tag _ _ _ => do
    let _ ← assign tag "order_by" "order by"
  | _ => throw .absentField

def prepareAll : List Node → Encoding Unit
  | [] => return
  | q :: qs => do
    prepare q
    prepareAll qs

def prepareWiths : List (Value × Node) → Encoding Unit
  | [] => return
  | (_, q) :: rest => do
    prepare q
    prepareWiths rest

end

end QueryEquiv.Labels
