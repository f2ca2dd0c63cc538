import QueryEquiv.QueryText.Formats
import QueryEquiv.Text.Integer

/-!
# Reading query text

Query text is read by a parser that stands outside. Before it is asked, the pieces it cannot read
are taken out of the text: inline tables, timestamp precisions, limits with two numbers, brackets
around a table name, and comparisons with NULL. Afterwards they are put back into the tree that the
parser gives, in the order in which they are met there.

At most one kind of piece is treated, the first that occurs in the order above. Where the parser
cannot read a text, the report quotes the text as it stood when the parser was asked.
-/

namespace QueryEquiv

/-- The outside parser: what it is going to reply, in order, and what it has been asked. A reply is
a tree, or nothing for a text that it refuses. -/
structure Library where
  replies : List (Option Value) := []
  asked : List String := []

namespace Library

/-- Questions and answers with the outside parser; what was asked is kept when a question fails. -/
abbrev Dialogue := ExceptT Fault (StateM Library)

/-- Asks for the tree of `text`. A refusal is reported with the text `current`. -/
def ask (current text : String) : Dialogue Value := do
  let lib ← get
  set { lib with asked := lib.asked ++ [text], replies := lib.replies.tail }
  match lib.replies with
  | some tree :: _ => return tree
  | none :: _ => throw (.ofQueryText current)
  | [] => throw .unanswered

end Library

namespace QueryText

open Text Library

/-- The name by which the reader of query text shows itself. -/
def readerName : String := "SQLParser"

/-! ## Walking through a tree -/

mutual

/-- Goes through a tree from left to right with a store. `step` gives the new value for what it
replaces, and `none` for what is to be gone through. -/
def walk {σ : Type} (step : Option String → Value → σ → Outcome (Option (Value × σ))) (key : Option String)
    (v : Value) (store : σ) : Outcome (Value × σ) := do
  match ← step key v store with
  | some r => return r
  | none =>
    match v with
    | .list xs => do
      let (xs, store) ← walkList step xs store
      return (.list xs, store)
    | .object es => do
      let (es, store) ← walkEntries step es store
      return (.object es, store)
    | v => return (v, store)

def walkList {σ : Type} (step : Option String → Value → σ → Outcome (Option (Value × σ))) :
    List Value → σ → Outcome (List Value × σ)
  | [], store => .ok ([], store)
  | v :: vs, store => do
    let (v, store) ← walk step none v store
    let (vs, store) ← walkList step vs store
    return (v :: vs, store)

def walkEntries {σ : Type} (step : Option String → Value → σ → Outcome (Option (Value × σ))) :
    List (String × Value) → σ → Outcome (List (String × Value) × σ)
  | [], store => .ok ([], store)
  | (k, v) :: es, store => do
    let (v, store) ← walk step (some k) v store
    let (es, store) ← walkEntries step es store
    return ((k, v) :: es, store)

end

/-- Takes the next of the pieces that were cut out. -/
def next {α : Type} : List α → Outcome (α × List α)
  | [] => .error .outOfRange
  | a :: as => .ok (a, as)

/-- A number written in decimal digits; too many of them are refused. -/
def number (cs : List Char) : Outcome Int :=
  match readDigits? (trimNumber cs) with
  | some n => .ok n
  | none => .error .badValue

def putPrecision : Option String → Value → List Int → Outcome (Option (Value × List Int))
  | some "timestamp", _, ns => do
    let (n, ns) ← next ns
    return some (.int n, ns)
  | _, _, _ => .ok none

/-- The number after the comma of a limit. -/
def secondNumber (clause : List Char) : Outcome Int := number ((clause.dropWhile (· != ',')).drop 1)

/-- Puts the second number of a limit beside the first. -/
def putLimit : Option String → Value → List Int → Outcome (Option (Value × List Int))
  | some "limit", v, ns =>
    if v.isInteger then do
      let (n, ns) ← next ns
      return some (.list [v, .int n], ns)
    else .ok none
  | _, _, _ => .ok none

/-- The name that stands in a query for a piece that was cut out. -/
def placeholder : String := "TEMPORARY_PLACEHOLDER"

def putComparison : Option String → Value → List Value → Outcome (Option (Value × List Value))
  | _, .str s, cs =>
    if s = placeholder then do
      let (c, cs) ← next cs
      return some (c, cs)
    else .ok none
  | _, _, _ => .ok none

/-! ## Comparisons with NULL -/

def nullTree : Value := .object [("null", .null)]

def comparisonTree (op : List Char) : Value :=
  let text := String.ofList op
  let isNe := occursIn "<>" text
  let parts := (text.splitOn (if isNe then "<>" else "=")).map fun p ↦
    String.ofList (trim p.toList)
  let operands := match parts with
    | "NULL" :: rest => nullTree :: rest.map Value.str
    | a :: _ :: rest => .str a :: nullTree :: rest.map Value.str
    | ps => ps.map Value.str
  .object [(if isNe then "neq" else "eq", .list operands)]

/-- Replaces the first occurrence of `part` by the placeholder. -/
def cutFirst (part cs : List Char) : List Char :=
  match (Pattern.ofChars part).find? cs with
  | some f => f.before ++ placeholder.toList ++ f.after
  | none => cs.take (cs.length - 1) ++ placeholder.toList ++ cs.drop (part.length - 1)

/-! ## Inline tables -/

/-- Whether a value stands for an inline table: an object for `VALUES` with a name. The answer is the
name, or false. -/
def inlineName (v : Value) : Value :=
  match v with
  | .object _ =>
    if ((v.get? "value").getD (.bool false)).same (.str "VALUES") then (v.get? "name").getD (.bool false)
    else .bool false
  | _ => .bool false

def isPlaceholder (v : Value) : Bool := v.same (.object [("value", .str placeholder)])

/-- The names of columns as they are listed in a statement. -/
private def columnList : Value → Outcome (List String)
  | .list xs => xs.mapM fun x ↦
    match x with
    | .str s => .ok s
    | _ => .error .wrongKind
  | .object es => .ok (es.map (·.1))
  | _ => .error .wrongKind

/-- The first `n` columns; only a list has a first part. -/
private def takeColumns (n : Nat) : Value → Outcome (List Value)
  | .list xs => .ok (xs.take n)
  | _ => .error .wrongKind

/-- Asks for the types of a row's values by inserting the row into a table. -/
private def readRow (current target : String) (row : List Char) : Dialogue Value := do
  let tree ← ask current (s!"INSERT INTO {target} VALUES " ++ String.ofList row)
  let select ← (tree.entry "query" >>= Value.entry "select" : Outcome Value)
  return match select with
    | .object _ => .list [select]
    | v => v

/-- The table that stands for the next inline table of the text. -/
private def readInline (current : String) (name : Value) (tables : List (List (List Char))) :
    Dialogue (Value × List (List (List Char))) := do
  let (table, columns) ← match name with
    | .object [] => throw Fault.outOfRange
    | .object ((t, cs) :: _) =>
      let cs := match cs with
        | .str _ => Value.list [cs]
        | cs => cs
      pure (Value.str t, some cs)
    | t => pure (t, none)
  let (rows, tables) ← (next tables : Outcome _)
  let target ← match columns with
    | some cs => do
      if rows.isEmpty then pure table.text
      else
        let names ← (columnList cs : Outcome _)
        let listed := ", ".intercalate names
        pure s!"{table.text}({listed})"
    | none => pure table.text
  let lines ← rows.mapM fun r ↦ readRow current target r
  let width ← match lines with
    | [] => throw Fault.outOfRange
    | l :: _ => (l.count : Outcome Nat)
  let columns ← (takeColumns width (columns.getD (.list [.str "X", .str "Y", .str "Z"])) : Outcome _)
  return (.inline table columns lines, tables)

mutual

/-- Puts inline tables into a tree, from left to right. -/
private def fillInline (current : String) (v : Value) (tables : List (List (List Char))) :
    Dialogue (Value × List (List (List Char))) := do
  let name := inlineName v
  if name.truthy then readInline current name tables
  else
    match v with
    | .list xs => do
      let (xs, tables) ← fillInlines current xs tables
      return (.list xs, tables)
    | .object es => do
      let (es, tables) ← fillInlineEntries current es tables
      return (.object es, tables)
    | v => return (v, tables)

private def fillInlines (current : String) : List Value → List (List (List Char)) →
    Dialogue (List Value × List (List (List Char)))
  | [], tables => return ([], tables)
  | v :: vs, tables => do
    let (v, tables) ← fillInline current v tables
    let (vs, tables) ← fillInlines current vs tables
    return (v :: vs, tables)

private def fillInlineEntries (current : String) : List (String × Value) → List (List (List Char)) →
    Dialogue (List (String × Value) × List (List (List Char)))
  | [], tables => return ([], tables)
  | (k, v) :: es, tables => do
    let (v, tables) ← fillInline current v tables
    let (es, tables) ← fillInlineEntries current es tables
    return ((k, v) :: es, tables)

end

def inlineRows (cs : List Char) : List (List Char) :=
  let inner := trim ((cs.drop 1).dropLast)
  inlineRow.findAll (trim (inner.drop 6))

/-! ## Cleaning a tree -/

private def isPlainNumber : Value → Bool
  | .int _ | .bool _ | .float _ => true
  | _ => false

/-- Quoted text that is a date or a time becomes one. -/
private def dateOrTime? : Value → Option Value
  | .object [("literal", .str s)] =>
    if isTime s then some (.object [("time", .str (String.ofList (beforeStop s)))])
    else if isDate s then some (.object [("date", .str s)])
    else none
  | _ => none

/-- A literal number, or a list of literal numbers, becomes the number or the list. -/
private def unwrapNumbers : Value → Value
  | .object [("literal", v)] =>
    match v with
    | .list xs => if xs.all isPlainNumber then v else .object [("literal", v)]
    | v => if isPlainNumber v then v else .object [("literal", v)]
  | v => v

/-- A tree whose parts are clean: a quoted date or time is marked as such, and literal numbers stand alone. -/
private def cleaned (v inside : Value) : Value := (dateOrTime? v).getD (unwrapNumbers inside)

/-- A value that keeps its form; quoted text that is a date or a time stays as it is. -/
private def cleanedNested (v inside : Value) : Value := if (dateOrTime? v).isSome then v else inside

mutual

/-- Cleans the parts of a tree and keeps the tree itself. What stands under `literal` keeps its
outermost form too. -/
def cleanInside : Value → Value
  | .list xs => .list (cleanList xs)
  | .object es => .object (cleanEntries es)
  | v => v

def cleanList : List Value → List Value
  | [] => []
  | v :: vs => cleaned v (cleanInside v) :: cleanList vs

def cleanEntries : List (String × Value) → List (String × Value)
  | [] => []
  | (k, v) :: es =>
    (k, if k = "literal" then cleanedNested v (cleanInside v) else cleaned v (cleanInside v)) :: cleanEntries es

end

/-- Cleans inside a value that keeps its form: quoted dates and times are marked as such, and literal numbers
stand alone. -/
def cleanNested (v : Value) : Value := cleanedNested v (cleanInside v)

/-! ## The whole text -/

/-- The tree of a query text. -/
def read (text : String) : Dialogue Value := do
  let query := (replace text "SELECT ALL " "SELECT ").toList
  let ask (current text : List Char) : Dialogue Value :=
    Library.ask (String.ofList current) (String.ofList text)
  let tree ←
    if (inlineTable.find? query).isSome then do
      let (cuts, last) := inlineTable.cut query
      let query := (" VALUES ".toList).intercalate (cuts.map (·.1) ++ [last])
      let tree ← ask query query
      let (tree, _) ← fillInline (String.ofList query) tree (cuts.map fun c ↦ inlineRows c.2)
      pure tree
    else if occursIn "TIMESTAMP" (String.ofList query) then do
      let precisions ← ((preciseTimestamp.findAll query).mapM fun m ↦ number ((m.drop 10).dropLast) : Outcome _)
      let query := preciseTimestamp.replaceAll "TIMESTAMP".toList query
      let tree ← ask query query
      let (tree, _) ← (walk putPrecision none tree precisions : Outcome _)
      pure tree
    else if (doubleLimit.find? query).isSome then do
      let (cuts, last) := doubleLimit.cut query
      let firsts := cuts.flatMap fun (before, clause) ↦ before ++ clause.takeWhile (· != ',')
      let seconds ← (cuts.mapM fun c ↦ secondNumber c.2 : Outcome _)
      let tree ← ask last (firsts ++ last)
      let (tree, _) ← (walk putLimit none tree seconds : Outcome _)
      pure tree
    else if (bracketedTable.find? query).isSome then do
      let bare (c : List Char) : List Char := c.filter fun x ↦ x != '(' && x != ')'
      let query := (bracketedTable.findAll query).foldl (fun q c ↦ replaceText c (bare c) 1 q) query
      ask query query
    else do
      let query := replaceText "!=".toList "<>".toList query.length query
      let query := replaceText "||".toList " OR ".toList query.length query
      let operations := nullComparison.findAll query
      let query := operations.foldl (fun q op ↦ cutFirst op q) query
      let tree ← ask query query
      let (tree, _) ← (walk putComparison none tree (operations.map comparisonTree) : Outcome _)
      pure tree
  return cleanNested tree

end QueryText

end QueryEquiv
