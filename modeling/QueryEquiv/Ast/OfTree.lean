import QueryEquiv.Ast.Basic
import QueryEquiv.Value.Access
import QueryEquiv.Text.Case

/-!
# Syntax trees from parse trees

A parse tree is an untyped value in which an object with one entry is an operator with its operands,
a text is a column and a number is itself. Reading it gives the syntax tree of a query. Where the
parse tree is not of the expected shape, the fault is that of the first question it cannot answer.

Every step goes to a part of the tree, at most three steps for each level of nesting, so the fuel
that the public functions pass, computed from the depth of the tree, is never used up.
-/

namespace QueryEquiv.Node

open QueryEquiv.Text

/-- Whether a value is a query inside an expression. -/
def isSubquery (v : Value) : Outcome Bool := do
  if ← v.has "select" then return true else v.has "select_distinct"

/-- Sets an entry, keeping the place of an older entry with an equal key. -/
private def putWith (name : Value) (q : Node) :
    List (Value × Node) → List (Value × Node)
  | [] => [(name, q)]
  | (n, p) :: rest => if n.same name then (n, q) :: rest else (n, p) :: putWith name q rest

/-- A date written as a text. -/
private def dateOf : Value → Outcome Node
  | .str s =>
    match Date.ofMoment? s with
    | some d => .ok (lit (.date d))
    | none => .error .badValue
  | _ => .error .wrongKind

/-- A time written as a text. -/
private def timeOf : Value → Outcome Node
  | .str s =>
    match TimeOfDay.read? s.toList with
    | some t => .ok (lit (.time t))
    | none => .error .badValue
  | _ => .error .wrongKind

/-- An operand among several: a text is a column, and what is inside an object is read by `nested`. -/
def operandBy (nested : Value → Outcome Node) (v : Value) : Outcome Node :=
  match v with
  | .int _ | .float _ | .bool _ => pure (lit v)
  | .str _ => pure (column v .null)
  | .object _ => nested v
  | .list ws => do
    pure (list (← ws.mapM fun w ↦
      match w with
      | .object _ => nested w
      | _ => pure (column w .null)))
  | _ => .error (.unsupported none)

/-- Operators of two operands, applied from the left. -/
def chain (op : Value) : List Node → Outcome Node
  | [] => .error .wrongKind
  | n :: ns => ns.foldlM (fun a b ↦ apply op [a, b] .null) n

mutual

/-- A query or a union, with the name it is given. -/
def readQuery : Nat → Value → Outcome Node
  | 0, _ => .error .tooDeep
  | fuel + 1, tree => do
    let named ← (do if ← tree.has "value" then tree.has "name" else return false)
    let byname ← if named then tree.entry "name" else pure .null
    let tree ← if named then tree.entry "value" else pure tree
    let withs ← if ← tree.has "with" then do
        let clauses ← tree.entry "with"
        let clauses := match clauses with
          | .list cs => cs
          | c => [c]
        let entries ← clauses.foldlM (fun es c ↦ do
          let name ← c.entry "name"
          let q ← readQuery fuel (← c.entry "value")
          if name.isKey then return putWith name q es else .error .wrongKind) []
        pure (some entries)
      else pure none
    let readAll (key : String) : Outcome (List Node) := do
      let parts ← (← tree.entry key).members
      parts.mapM fun q ↦ readQuery fuel q
    if ← tree.has "select" then do
      let select ← readSelect fuel (← tree.entry "select") false
      readClauses fuel tree withs select byname
    else if ← tree.has "select_distinct" then do
      let select ← readSelect fuel (← tree.entry "select_distinct") true
      readClauses fuel tree withs select byname
    else if ← tree.has "union" then do
      return union 0 (← readAll "union") (.bool false) byname
    else if ← tree.has "union_all" then do
      return union 0 (← readAll "union_all") (.bool true) byname
    else .error (.unsupported none)

/-- The clauses after SELECT. A HAVING without a GROUP BY filters like WHERE. -/
def readClauses : Nat → Value → Option (List (Value × Node)) → Node → Value → Outcome Node
  | 0, _, _, _, _ => .error .tooDeep
  | fuel + 1, tree, withs, select, byname => do
    let source ← readSource fuel (← tree.entry "from")
    let condition ← if ← tree.has "where" then readExpression fuel (← tree.entry "where") else pure missing
    let hasWhere ← tree.has "where"
    let hasHaving ← tree.has "having"
    let hasGroups ← tree.has "groupby"
    let whereClause ←
      if hasHaving && !hasGroups then do
        let having ← readExpression fuel (← tree.entry "having")
        if hasWhere then do pure (filter 0 (← apply (.str "and") [condition, having] .null))
        else pure (filter 0 having)
      else pure (if hasWhere then filter 0 condition else missing)
    let groups ←
      if hasGroups then do
        let keys ← readKeys fuel (← tree.entry "groupby")
        let having ← if hasHaving then readExpression fuel (← tree.entry "having") else pure missing
        pure (groupBy 0 (keys.map (·.1)) having)
      else pure missing
    let order ←
      if ← tree.has "orderby" then do
        let keys ← readKeys fuel (← tree.entry "orderby")
        pure (some keys)
      else pure none
    let order ←
      if ← tree.has "limit" then
        match order with
        | some keys => do pure (orderBy 0 (keys.map (·.1)) (keys.map (·.2)) (← tree.entry "limit"))
        | none => do
          let _ ← tree.entry "limit"
          .error .absentField
      else
        match order with
        | some keys => pure (orderBy 0 (keys.map (·.1)) (keys.map (·.2)) .null)
        | none => pure missing
    return query 0 withs select source whereClause groups order byname

def readSelect : Nat → Value → Bool → Outcome Node
  | 0, _, _ => .error .tooDeep
  | fuel + 1, tree, distinct => do
    let target (v : Value) : Outcome Node := do
      let byname ← if ← v.has "name" then v.entry "name" else pure .null
      let value ← v.entry "value"
      match value with
      | .bool _ | .int _ => return literal value byname
      | .object _ => do (← readExpression fuel value).setAlias byname
      | _ => return column value byname
    let targets ← match tree with
      | .list ts => ts.mapM fun t ↦ do
        if ← t.has "value" then target t else pure (column t .null)
      | .str _ => pure [column tree .null]
      | .object _ => do
        if ← tree.has "value" then pure [← target tree] else pure []
      | _ => .error (.ofQueryText tree.text)
    return project 0 targets (.bool distinct)

/-- The source of a query: a table, a derived table, or tables joined from the left. -/
def readSource : Nat → Value → Outcome Node
  | 0, _ => .error .tooDeep
  | fuel + 1, tree => do
    match tree with
    | .str _ => return scan tree .null
    | _ =>
      let named ← (do if ← tree.has "value" then tree.has "name" else return false)
      let value ← if named then tree.entry "value" else pure .null
      if named && value.isString then return scan value (← tree.entry "name")
      else
        match tree with
        | .list [] => .error .outOfRange
        | .list (first :: rest) => do
          let left ← readSource fuel first
          rest.foldlM (fun left t ↦ do
            match t with
            | .object [] => .error .exhausted
            | .object ((k, v) :: _) => do
              let joins := occursIn "join" k
              let right ← readSource fuel (if joins then v else t)
              let kind := if joins then k else "cross join"
              let hasOn ← t.has "on"
              let cond ← if hasOn then readExpression fuel (← t.entry "on") else pure missing
              let shared ←
                if hasOn then pure missing
                else if ← t.has "using" then readExpression fuel (← t.entry "using")
                else pure missing
              return join 0 left right (.str kind) cond shared
            | t => return join 0 left (scan t .null) (.str "cross join") missing missing) left
        | _ => readQuery fuel tree

/-- The keys of GROUP BY or ORDER BY, with their directions. -/
def readKeys : Nat → Value → Outcome (List (Node × Value))
  | 0, _ => .error .tooDeep
  | fuel + 1, tree => do
    let keys := match tree with
      | .list ks => ks
      | k => [k]
    keys.mapM fun k ↦ do
      let value ← k.entry "value"
      let key ← match value with
        | .str _ => pure (column value .null)
        | .int _ | .bool _ => pure (lit value)
        | _ => readExpression fuel value
      let direction ← if ← k.has "sort" then k.entry "sort" else pure (.str "asc")
      return (key, direction)

def readExpression : Nat → Value → Outcome Node
  | 0, _ => .error .tooDeep
  | fuel + 1, tree => do
    match tree with
    | .int _ | .bool _ | .str _ | .float _ => return lit tree
    | _ =>
      let isPair := (← tree.count) == 2
      let distinctPair ← if isPair then tree.has "distinct" else pure false
      if distinctPair then
        match tree with
        | .object [_, (name, arg)] => do
          let flag ← tree.entry "distinct"
          let arg ← match arg with
            | .object _ => readExpression fuel arg
            | _ => pure (column arg .null)
          apply (.str name) [raw flag, arg] .null
        | _ => .error .wrongKind
      else
        match tree with
        | .object [] => .error .exhausted
        | .object ((op, operand) :: _) => readApplication fuel tree op ((tree.get? op).getD operand)
        | .list [] => .error .exhausted
        | .list (.str _ :: _) => .error .wrongKind
        | .list _ => .error .absentField
        | _ => .error .wrongKind

/-- An operator with its operand, the first entry of `tree`. -/
def readApplication : Nat → Value → String → Value → Outcome Node
  | 0, _, _, _ => .error .tooDeep
  | fuel + 1, tree, op, operand => do
    if lower op = "if" then do
      let c ← readExpression fuel (← operand.member 0)
      let y ← readExpression fuel (← operand.member 1)
      let n ← readExpression fuel (← operand.member 2)
      return ifThen c y n .null
    else if aggregateNames.contains (lower op) then do
      let flag ← if ← tree.has "distinct" then tree.entry "distinct" else pure (.bool false)
      let arg ← match operand with
        | .list _ => operand.member 0
        | v => pure v
      let arg ← readExpression fuel arg
      if ← tree.has "filter" then do
        let _ ← apply (.str op) [raw flag, arg] .null
        let _ ← readExpression fuel (← (← tree.entry "filter").entry "where")
        .error .wrongKind
      else apply (.str op) [raw flag, arg] .null
    else if (match operand with
        | .object [] => true
        | _ => false) then return lit (.str op)
    else if op = "literal" then
      match operand with
      | .list vs => do return list (← vs.mapM fun v ↦ readExpression fuel v)
      | v => readExpression fuel v
    else if op = "date" then do
      if ← operand.has "date" then dateOf (← operand.entry "date") else dateOf operand
    else if op = "time" then do
      if ← operand.has "time" then timeOf (← operand.entry "time") else timeOf operand
    else if op = "case" then readCases fuel operand
    else do
      let nested (v : Value) : Outcome Node := do
        if ← isSubquery v then readQuery fuel v else readExpression fuel v
      let args ← match operand with
        | .list vs => vs.mapM (operandBy nested)
        | .object _ => do pure [← nested operand]
        | .int _ | .bool _ => pure [lit operand]
        | .str _ => pure [column operand .null]
        | _ => do
          if ← tree.has "null" then pure [] else .error (.unsupported none)
      let isNull := match operand with
        | .list _ | .object _ | .int _ | .bool _ | .str _ => false
        | _ => true
      if isNull then return lit .null
      else if op = "add" then chain (.str op) args
      else apply (.str op) args .null

/-- The branches of CASE, the last of which may be the default. -/
def readCases : Nat → Value → Outcome Node
  | 0, _ => .error .tooDeep
  | fuel + 1, tree => do
    let leaf (v : Value) : Outcome Node :=
      match v with
      | .str _ => pure (column v .null)
      | _ => readExpression fuel v
    let branches ← match tree with
      | .object _ => pure [tree]
      | .list bs => pure bs
      | .str s => pure (s.toList.map fun c ↦ .str c.toString)
      | _ => .error .wrongKind
    match branches.getLast? with
    | none => .error .outOfRange
    | some last =>
      let isBranch ← match last with
        | .object _ => do if ← last.has "when" then pure true else last.has "then"
        | _ => pure false
      let default ← if isBranch then pure missing else leaf last
      let branches := if isBranch then branches else branches.dropLast
      let cases ← branches.mapM fun b ↦ do
        let cond ← leaf (← b.entry "when")
        let result ← leaf (← b.entry "then")
        return (cond, result)
      return caseWhen cases default .null

end

private def stepsFor (tree : Value) : Nat := 4 * tree.depth + 8

def ofQueryTree (tree : Value) : Outcome Node := readQuery (stepsFor tree) tree

def ofExpressionTree (tree : Value) : Outcome Node := readExpression (stepsFor tree) tree

/-! ## The tables that a parse tree mentions -/

mutual

private def sourceNames : Nat → Value → Outcome (List Value)
  | 0, _ => .error .tooDeep
  | fuel + 1, tree => do
    match tree with
    | .list ts => sourceNamesOf fuel ts
    | .object es =>
      match Value.lookup "value" es with
      | some v => return [v]
      | none =>
        let keys := ["inner join", "join", "left join", "right join", "full join", "from"]
        match keys.findSome? fun k ↦ Value.lookup k es with
        | some v => sourceNames fuel v
        | none => .error (.unsupported none)
    | v => return [v]

private def sourceNamesOf : Nat → List Value → Outcome (List Value)
  | 0, _ => .error .tooDeep
  | fuel + 1, ts => do
    let parts ← ts.mapM fun t ↦ do
      let names ← sourceNames fuel t
      let again ← names.mapM fun n ↦ sourceNames fuel n
      return again.flatten
    return parts.flatten

end

private def namesWithin : Nat → Value → Outcome (List Value)
  | 0, _ => .error .tooDeep
  | fuel + 1, tree => do
    match tree with
    | .object es => do
      let parts ← es.mapM fun (k, v) ↦
        if k = "from" then sourceNames (stepsFor v) v
        else
          match v with
          | .object _ => namesWithin fuel v
          | _ => pure []
      return parts.flatten
    | _ => .error .absentField

def tablesOf (tree : Value) : Outcome (List Value) := namesWithin (stepsFor tree) tree

end QueryEquiv.Node
