import QueryEquiv.Value.Arithmetic

/-!
# Terms

The terms that queries are turned into. The uninterpreted part describes tables by their numbers:
`cell`, `null` and `deleted` give the contents of the rows, `choice` the decisions that an operator
takes for its rows, `grouping` which row belongs to which group, `size` the number of rows, and
`belongs` which result belongs to which group of equal results.

A number or a truth value in a term is any value, and a plain value may stand where a term is
expected; neither has a meaning to a solver unless it is of the right kind, and the text of a term
says where it is not.
-/

namespace QueryEquiv

inductive Term where
  | cell (table row column : Int)
  | null (table row column : Int)
  | grouping (table row group : Int)
  | deleted (table row : Int)
  | belongs (query group : Int)
  | size (table : Int)
  | choice (table bit : Int)
  | and (parts : List Term)
  | or (parts : List Term)
  | xor (a b : Term)
  | not (a : Term)
  | implies (a b : Term)
  | ite (c a b : Term)
  | cmp (op : Comparison) (a b : Term)
  | arith (op : Arith) (a b : Term)
  | neg (a : Term)
  | int (v : Value)
  | bool (v : Value)
  /-- A value that is not a term. -/
  | plain (v : Value)
  deriving Inhabited

namespace Term

/-! ## Constants -/

def nat (n : Nat) : Term := int (.int n)

def ofInt (n : Int) : Term := int (.int n)

def zero : Term := int (.int 0)

def one : Term := int (.int 1)

def top : Term := bool (.bool true)

def bot : Term := bool (.bool false)

def isPlain : Term → Bool
  | plain _ => true
  | _ => false

/-! ## Terms that cannot fail to be terms -/

/-- Equality of two terms. -/
def eq (a b : Term) : Term := cmp .eq a b

def ne (a b : Term) : Term := cmp .ne a b

def le (a b : Term) : Term := cmp .le a b

def ge (a b : Term) : Term := cmp .ge a b

/-- One if the condition holds, else zero. -/
def indicator (c : Term) : Term := ite c one zero

/-- The sum of terms, from the left; zero if there are none. -/
def sum : List Term → Term
  | [] => zero
  | t :: ts => ts.foldl (arith .add) t

/-! ## Operations on terms and plain values -/

/-- A comparison needs terms on both sides. -/
def comparison (op : Comparison) (a b : Term) : Outcome Term :=
  if a.isPlain || b.isPlain then .error .broken else .ok (cmp op a b)

/-- Compares terms, and plain values among themselves. -/
def compare (op : Comparison) (a b : Term) : Outcome Term :=
  match a, b with
  | plain v, plain w => do return plain (.bool (← v.compare op w))
  | _, _ => comparison op a b

/-- Computes with terms, and with plain values among themselves. A plain value on the left of a term
is refused. -/
def compute (op : Arith) (a b : Term) : Outcome Term :=
  match a, b with
  | plain v, plain w => do return plain (← v.arith op w)
  | plain _, _ => .error .wrongKind
  | _, _ => .ok (arith op a b)

def negate : Term → Outcome Term
  | plain v => do return plain (← v.neg)
  | t => .ok (neg t)

/-- The sum of terms and plain values, from the left. -/
def total : List Term → Outcome Term
  | [] => .ok zero
  | t :: ts => ts.foldlM (compute .add) t

def abs (a : Term) : Outcome Term := do
  let c ← compare .ge a zero
  return ite c a (← negate a)

end Term

end QueryEquiv
