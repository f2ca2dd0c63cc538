import QueryEquiv.Value

/-!
# Syntax trees of queries

A query is a tree of nodes: expressions at the leaves, the clauses of a query above them, and whole
queries and unions, which may again stand inside an expression. The tree is as free as the input
that it is read from: names and aliases are values, a clause may be missing, and an argument may be
a list or a plain value instead of a node. What a node cannot be used for is found out by the
operation that needs it.

The clauses and queries that an encoding refers to carry a tag, which tells two occurrences of the
same text apart.
-/

namespace QueryEquiv

inductive Node where
  /-- A column, or a star for several. -/
  | column (name byname : Value)
  | literal (value byname : Value)
  | expression (operator : Value) (args : List Node) (byname : Value)
  | caseWhen (cases : List (Node × Node)) (default : Node) (byname : Value)
  | ifThen (cond yes no : Node) (byname : Value)
  /-- The name of a function, standing alone. -/
  | function (name : Value)
  /-- The name of an operator, standing alone. -/
  | operator (name : Value)
  | filter (tag : Nat) (predicate : Node)
  | project (tag : Nat) (targets : List Node) (distinct : Value)
  | scan (table byname : Value)
  | join (tag : Nat) (left right : Node) (kind : Value) (cond shared : Node)
  | groupBy (tag : Nat) (keys : List Node) (having : Node)
  | orderBy (tag : Nat) (keys : List Node) (orders : List Value) (limit : Value)
  | query (tag : Nat) (withs : Option (List (Value × Node))) (select source whereClause groupBy
      orderBy : Node) (byname : Value)
  | union (tag : Nat) (queries : List Node) (keepsDuplicates byname : Value)
  /-- A node and another one that replaces it. -/
  | mutated (before after : Node) (rule : Value) (showsAfterOnly : Value)
  | list (items : List Node)
  /-- A plain value; the null value stands for a missing part. -/
  | raw (v : Value)
  deriving Inhabited

namespace Node

def missing : Node := raw .null

def isMissing : Node → Bool
  | raw .null => true
  | _ => false

def attr (name : String) : Node := column (.str name) .null

def lit (v : Value) : Node := literal v .null

/-- Expressions in the narrow sense, which have an operator and arguments. -/
def isExpression : Node → Bool
  | expression .. | caseWhen .. | ifThen .. => true
  | _ => false

def isColumn : Node → Bool
  | column .. => true
  | _ => false

def isLiteral : Node → Bool
  | literal .. => true
  | _ => false

def isQuery : Node → Bool
  | query .. => true
  | _ => false

def isList : Node → Bool
  | list _ => true
  | _ => false

/-- Whether a node, standing as a flag, counts as true. -/
def truthy : Node → Bool
  | raw v => v.truthy
  | list xs => !xs.isEmpty
  | _ => true

/-! ## Operators -/

def arithmeticOperators : List String := ["add", "sub", "mul", "div", "neg"]

def comparisonOperators : List String := ["gt", "gte", "lt", "lte", "eq", "neq"]

def logicalOperators : List String := ["not", "and", "or"]

def aggregateNames : List String := ["min", "max", "count", "sum", "avg"]

/-- Operators work on terms directly; every other name is a function. -/
def isOperatorName (name : String) : Bool :=
  arithmeticOperators.contains name || comparisonOperators.contains name ||
    logicalOperators.contains name

def operatorName : Value → Value
  | .str "missing" => .str "is_null"
  | .str "exists" => .str "is_not_null"
  | v => v

/-- An expression. The right side of a membership test that is a single value becomes a list of
one, and a membership test without a right side is refused. -/
def apply (operator : Value) (args : List Node) (byname : Value) : Outcome Node := do
  match operator with
  | .list _ | .object _ => .error .wrongKind
  | _ => pure ()
  let args ← match operator with
    | .str "in" | .str "nin" =>
      match args with
      | a :: b :: rest =>
        if b.isLiteral || b.isExpression then pure (a :: list [b] :: rest) else pure args
      | _ => .error .outOfRange
    | _ => pure args
  return expression (operatorName operator) args byname

def setAlias (byname : Value) : Node → Outcome Node
  | column n _ => .ok (column n byname)
  | literal v _ => .ok (literal v byname)
  | expression o as _ => .ok (expression o as byname)
  | caseWhen cs d _ => .ok (caseWhen cs d byname)
  | ifThen c y n _ => .ok (ifThen c y n byname)
  | query t w s f wh g o _ => .ok (query t w s f wh g o byname)
  | union t qs k _ => .ok (union t qs k byname)
  | _ => .error .absentField

end Node

end QueryEquiv
