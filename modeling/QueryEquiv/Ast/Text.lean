import QueryEquiv.Ast.Basic
import QueryEquiv.Text.Case

/-!
# The text of syntax trees

Two texts of a node: as a query, and as the constructor calls that build it. A name that is not a
text, an unknown kind of join or a function without its arguments has no text as a query.
-/

namespace QueryEquiv.Node

open QueryEquiv.Text

/-! ## Names -/

def operatorSymbol : String → Option String
  | "add" => some "+"
  | "sub" => some "-"
  | "mul" => some "*"
  | "div" => some "/"
  | "neg" => some "-"
  | "gt" => some ">"
  | "gte" => some ">="
  | "lt" => some "<"
  | "lte" => some "<="
  | "eq" => some "="
  | "neq" => some "<>"
  | "not" => some "NOT"
  | "and" => some "AND"
  | "or" => some "OR"
  | _ => none

def joinSymbol (kind : Value) : Outcome String :=
  match kind with
  | .str "join" => .ok "JOIN"
  | .str "inner join" => .ok "INNER JOIN"
  | .str "left join" => .ok "LEFT JOIN"
  | .str "right join" => .ok "RIGHT JOIN"
  | .str "full join" => .ok "FULL JOIN"
  | .str "left outer join" => .ok "LEFT OUTER JOIN"
  | .str "right outer join" => .ok "RIGHT OUTER JOIN"
  | .str "full outer join" => .ok "FULL OUTER JOIN"
  | .str "natural join" => .ok "NATURAL JOIN"
  | .str "cross join" => .ok "CROSS JOIN"
  | .list _ | .object _ => .error .wrongKind
  | _ => .error .absentKey

private def isNull : Value → Bool
  | .null => true
  | _ => false

private def aliased (s : String) (byname : Value) : String :=
  if isNull byname then s else s ++ " AS " ++ byname.text

/-- A name has to be a text. -/
private def nameText : Value → Outcome String
  | .str s => .ok s
  | _ => .error .wrongKind

private def commas : List String → String := ", ".intercalate

private def columnName : Node → Outcome String
  | column n _ | function n | operator n => nameText n
  | _ => .error .absentField

private def literalText : Value → String
  | .str s => "'" ++ s ++ "'"
  | v => v.text

/-! ## As constructor calls -/

mutual

/-- The constructor calls that build a node. -/
def repr : Node → Outcome String
  | column n a =>
    .ok <| if isNull a then s!"Attribute(name={n.repr})" else s!"Attribute(name={n.repr}, alias={a.repr})"
  | literal v a =>
    .ok <| if isNull a then s!"Literal(value={v.repr})" else s!"Literal(value={v.repr}, alias={a.repr})"
  | expression o args a => do
    let name ← nameText o
    reprCall name (← reprs args) a
  | ifThen c y n a => do
    let args := [← repr c, ← repr y, ← repr n]
    reprCall "if" args a
  | caseWhen cases d a => do
    let cs ← reprCases cases
    let d ← repr d
    return s!"CaseWhen(cases=[{commas cs}], default={d}" ++
      if isNull a then ")" else s!", alias={a.repr})"
  | function n => .ok s!"FunctionCall(name={n.repr})"
  | operator n => .ok s!"Operator(name={n.repr})"
  | filter _ p => do
    let p ← repr p
    return s!"Filter(predicate={p})"
  | project _ ts d => do
    let ts ← reprs ts
    return s!"Project(target_list=[{commas ts}], distinct={d.repr})"
  | scan t a =>
    .ok <| if isNull a then s!"Scan(table={t.repr})" else s!"Scan(table={t.repr}, alias={a.repr})"
  | join _ l r k cond shared => do
    let l ← repr l
    let r ← repr r
    let cond ← repr cond
    let shared ← repr shared
    return s!"Join(left={l}, right={r}, join_type={k.repr}, condition={cond}, using={shared})"
  | groupBy _ ks h => do
    let ks ← reprs ks
    let h ← repr h
    return s!"GroupBy(expressions=[{commas ks}], having={h})"
  | orderBy _ ks os l => do
    let ks ← reprs ks
    return s!"OrderBy(expressions=[{commas ks}], sort_orders={(Value.list os).repr}, limit={l.repr})"
  | query _ withs s f w g o a => do
    let s ← repr s
    let f ← repr f
    let w ← repr w
    let g ← repr g
    let o ← repr o
    let ctes ← match withs with
      | none => pure "None"
      | some es => do pure ("\x7b" ++ commas (← reprWiths es) ++ "\x7d")
    return s!"Query(select_clause={s}, from_clause={f}, where_clause={w}, group_by_clause={g}, " ++
      s!"order_by_clause={o}, cte={ctes}, alias={a.repr})"
  | union _ qs k a => do
    let qs ← reprs qs
    return s!"Union(queries=[{commas qs}], allow_duplicates={k.repr}" ++
      if isNull a then ")" else s!", alias={a.text})"
  | mutated b a rule _ => do
    let b ← repr b
    let a ← repr a
    return s!"MutatedNode(rule={rule.repr}, original={b}, mutant={a})"
  | list xs => do return "[" ++ commas (← reprs xs) ++ "]"
  | raw v => .ok v.repr
where
  reprCall (name : String) (args : List String) (byname : Value) : Outcome String :=
    .ok <| s!"Expression(operator={quoted name}, args=[{commas args}]" ++
      if isNull byname then ")" else s!", alias={byname.repr})"

def reprs : List Node → Outcome (List String)
  | [] => .ok []
  | n :: ns => do
    let s ← repr n
    return s :: (← reprs ns)

def reprCases : List (Node × Node) → Outcome (List String)
  | [] => .ok []
  | (c, r) :: rest => do
    let c ← repr c
    let r ← repr r
    return s!"({c}, {r})" :: (← reprCases rest)

def reprWiths : List (Value × Node) → Outcome (List String)
  | [] => .ok []
  | (k, n) :: rest => do
    let s ← repr n
    return (k.repr ++ ": " ++ s) :: (← reprWiths rest)

end

/-! ## As a query -/

/-- A derived table stands in brackets, with its alias. -/
private def inBrackets (s : String) : Node → String
  | query _ _ _ _ _ _ _ a => aliased ("(" ++ s ++ ")") a
  | _ => s

/-- The source of a query, which may be a replaced node around a derived table. -/
private def sourceText (s : String) : Node → String
  | mutated _ after _ _ => inBrackets s after
  | n => inBrackets s n

/-- The texts, if there are all of them. -/
private def all (parts : List (Outcome String)) : Outcome (List String) := parts.mapM id

/-- The left side of a membership test: a tuple shows the names of its columns. -/
private def memberText (n : Node) (s : Outcome String) : Outcome String :=
  match n with
  | list xs => do return "(" ++ commas (← xs.mapM columnName) ++ ")"
  | raw (.list []) => .ok "()"
  | raw (.list _) => .error .absentField
  | _ => s

/-- Arguments of a function; a query among them stands in brackets. -/
private def argumentTexts (args : List Node) (parts : List (Outcome String)) : Outcome (List String) :=
  (args.zip parts).mapM fun (n, s) ↦ do
    let s ← s
    return if n.isQuery then "(" ++ s ++ ")" else s

/-- An operator or a function with its arguments, from the texts of the arguments and those that they have as
the right side of a membership test. -/
private def applied (o : Value) (args : List Node) (parts : List (Outcome String))
    (choices : Unit → List (Outcome String)) : Outcome String := do
  match o with
  | .str name =>
    match operatorSymbol name with
    | some symbol =>
      let parts ← all parts
      if args.length = 2 || name = "and" || name = "or" then
        let s := (" " ++ symbol ++ " ").intercalate parts
        if name = "not" || comparisonOperators.contains name then return s else return "(" ++ s ++ ")"
      else return symbol ++ "(" ++ commas parts ++ ")"
    | none =>
      if name = "is_null" || name = "is_not_null" then
        match parts with
        | [] => .error .outOfRange
        | s :: _ => return (← s) ++ if name = "is_null" then " IS NULL" else " IS NOT NULL"
      else if aggregateNames.contains name then
        match args, parts with
        | flag :: _, _ :: s :: _ =>
          let s ← s
          return upper name ++ (if flag.truthy then "(DISTINCT " else "(") ++ s ++ ")"
        | _, _ => .error .outOfRange
      else if name = "in" || name = "nin" then
        match args, parts, choices () with
        | l :: _, s :: _, _ :: r :: _ =>
          let left ← memberText l s
          let right ← r
          return left ++ (if name = "in" then " IN " else " NOT IN ") ++ "(" ++ right ++ ")"
        | _, _, _ => .error .outOfRange
      else return upper name ++ "(" ++ commas (← argumentTexts args parts) ++ ")"
  | o => return upper o.text ++ "(" ++ commas (← argumentTexts args parts) ++ ")"

mutual

def text : Node → Outcome String
  | column n a => if isNull a then nameText n else .ok (aliased n.text a)
  | literal v a => .ok (aliased (literalText v) a)
  | expression o args a => do
    let s ← applied o args (texts args) fun _ ↦ choices args
    return aliased s a
  | caseWhen cases d a => do
    let cs ← textCases cases
    let d ← if d.isMissing then pure "" else do pure ("ELSE " ++ (← text d) ++ " ")
    return aliased ("CASE " ++ String.join cs ++ d ++ "END") a
  | ifThen c y n _ => do
    let c ← text c
    let y ← text y
    let n ← text n
    return s!"IF({c}, {y}, {n})"
  | function n | operator n => nameText n
  | filter _ p => text p
  | project _ ts d => do
    let ts ← all (texts ts)
    return (if d.truthy then "DISTINCT " else "") ++ commas ts
  | scan t a => .ok (aliased t.text a)
  | join _ l r k cond shared => do
    let ls ← text l
    let rs ← text r
    let ls := inBrackets ls l
    let rs := inBrackets rs r
    if !cond.isMissing then do
      let k ← joinSymbol k
      let cond ← text cond
      return s!"{ls} {k} {rs} ON {cond}"
    else if !shared.isMissing then do
      let k ← joinSymbol k
      match shared with
      | literal v _ => return s!"{ls} {k} {rs} USING ({v.text})"
      | _ => .error .absentField
    else
      match k with
      | .str "cross join" => return s!"{ls}, {rs}"
      | _ => do
        let k ← joinSymbol k
        return s!"{ls} {k} {rs}"
  | groupBy _ ks h => do
    let s := commas (← all (texts ks))
    if h.isMissing then return s else return s ++ " HAVING " ++ (← text h)
  | orderBy _ ks _ _ => do return commas (← all (texts ks))
  | query _ withs s f w g o _ => do
    let source := sourceText (← text f) f
    let start ← match withs with
      | none => pure ""
      | some [] => .error .outOfRange
      | some ((name, q) :: _) => do pure ("WITH " ++ name.text ++ " AS (" ++ (← text q) ++ ") ")
    let out := start ++ "SELECT " ++ (← text s) ++ " FROM " ++ source
    let out ← if w.isMissing then pure out else do pure (out ++ " WHERE " ++ (← text w))
    let out ← if g.isMissing then pure out else do pure (out ++ " GROUP BY " ++ (← text g))
    if o.isMissing then return out else return out ++ " ORDER BY " ++ (← text o)
  | union _ qs k a => do
    let qs ← all (texts qs)
    let s := (if k.truthy then " UNION ALL " else " UNION ").intercalate qs
    if isNull a then return s else return s!"({s}) AS {a.text}"
  | mutated b a _ only => do
    if only.truthy then text a
    else
      let b ← text b
      let a ← text a
      return s!"[({b}) -> ({a})]"
  | list xs => do return "[" ++ commas (← reprs xs) ++ "]"
  | raw v => .ok v.text

def texts : List Node → List (Outcome String)
  | [] => []
  | n :: ns => text n :: texts ns

/-- The texts of nodes as right sides of a membership test. -/
def choices : List Node → List (Outcome String)
  | [] => []
  | list xs :: ns => (do return commas (← all (texts xs))) :: choices ns
  | raw (.list vs) :: ns => .ok (commas (vs.map Value.text)) :: choices ns
  | n :: ns => text n :: choices ns

def textCases : List (Node × Node) → Outcome (List String)
  | [] => .ok []
  | (c, r) :: rest => do
    let c ← text c
    let r ← text r
    return s!"WHEN {c} THEN {r} " :: (← textCases rest)

end

end QueryEquiv.Node
