import QueryEquiv.Constraint.Basic
import QueryEquiv.Text.Integer
import QueryEquiv.Text.Pattern

/-!
# Reading constraints

Constraints are separated by semicolons, with an optional one at the end. There are no reserved
words: a word is read by what may stand in its place, so all readings of a text are followed at
once, and the first in the order of the grammar is kept. Blanks may stand between any two tokens.

A text that no reading accepts stops too early if some reading used it up, and has an unexpected
character otherwise. To tell the two apart, a parse carries along whether some reading got to the
end of the text.
-/

namespace QueryEquiv.Constraint

open Text Text.Pattern

/-! ## Tokens -/

def asciiDigits : Pattern := plus (one fun c ↦ '0' ≤ c && c ≤ '9')

def sign : Pattern := opt (one fun c ↦ c == '+' || c == '-')

def exponentPart : Pattern := seqs [one fun c ↦ c == 'e' || c == 'E', sign, asciiDigits]

/-- A number: with an exponent, with a decimal point, or whole. -/
def numberToken : Pattern :=
  seq sign (alts [seq asciiDigits exponentPart,
    seq (alt (seqs [asciiDigits, char '.', opt asciiDigits]) (seq (char '.') asciiDigits))
      (opt exponentPart),
    asciiDigits])

def dateToken : Pattern := seqs [numberToken, char '-', numberToken, char '-', numberToken]

def wordToken : Pattern := seq (one isWordStart) (star (one isWord))

def nullToken : Pattern := alt (lit "null") (lit "NULL")

/-- The blanks that may stand between tokens. -/
def isGap (c : Char) : Bool := c == ' ' || c == '\t' || c == '\n' || c == '\r' || c == Char.ofNat 12

def isQuote (c : Char) : Bool := c == '\'' || c == '"'

def isPlain (c : Char) : Bool := !(isGap c || isQuote c || c == ';')

def skipBlanks (cs : List Char) : List Char := cs.dropWhile isGap

/-- What follows a token that is not in quotes. It ends at a blank, a quote or a semicolon at the latest. -/
def afterPlain (p : Pattern) (cs : List Char) : Option (List Char) :=
  match p.match? (cs.takeWhile isPlain) with
  | some (m, _) => if m.isEmpty then none else some (cs.drop m.length)
  | none => none

/-- What follows the first quote `q`. A backslash may escape a double one, which has to be on the same line. -/
def afterQuote (q : Char) : List Char → Option (List Char)
  | [] => none
  | c :: cs =>
    if c = q then some cs
    else if q == '"' && c == '\n' then none
    else if q == '"' && c == '\\' then
      match cs with
      | d :: cs => if d = '\n' then none else afterQuote q cs
      | [] => none
    else afterQuote q cs

/-- What follows a text in single or double quotes, or a word. -/
def afterText : List Char → Option (List Char)
  | [] => none
  | c :: cs =>
    if isQuote c then if c == '\'' && cs.head? == some c then none else afterQuote c cs
    else afterPlain wordToken (c :: cs)

/-! ## Parsing with all readings -/

/-- The readings of a text, in order of preference, each with the rest of the text; and whether some
reading, finished or not, reached the end. -/
structure Readings (α : Type) where
  found : List (α × List Char)
  ended : Bool

abbrev Parser (α : Type) := List Char → Readings α

def succeed {α : Type} (a : α) : Parser α := fun cs ↦ ⟨[(a, cs)], false⟩

def bindP {α β : Type} (p : Parser α) (f : α → Parser β) : Parser β := fun cs ↦
  let r := p cs
  let rs := r.found.map fun (a, rest) ↦ f a rest
  ⟨rs.flatMap (·.found), r.ended || rs.any (·.ended)⟩

instance : Monad Parser where
  pure := succeed
  bind := bindP

/-- Two alternatives; of two readings of the same stretch of text the first is kept. -/
def either {α : Type} (p q : Parser α) : Parser α := fun cs ↦
  let r := p cs
  let s := q cs
  ⟨r.found ++ s.found.filter fun y ↦ !r.found.any fun x ↦ y.2.length = x.2.length, r.ended || s.ended⟩

def anyOf {α : Type} (ps : List (Parser α)) : Parser α := ps.foldr either fun _ ↦ ⟨[], false⟩

/-- One token, after blanks; `after?` tells what follows it. -/
def token (after? : List Char → Option (List Char)) : Parser (List Char) := fun cs ↦
  let cs := skipBlanks cs
  match after? cs with
  | some rest => ⟨[(cs.take (cs.length - rest.length), rest)], cs.isEmpty || rest.isEmpty⟩
  | none => ⟨[], cs.isEmpty⟩

def word (s : String) : Parser Unit := do
  let _ ← token (afterPlain (lit s))
  return ()

/-! ## Grammar -/

/-- A value as it is written; what it means is found out once the whole text is read. -/
inductive Written where
  | name (s : String)
  | number (cs : List Char)
  | date (cs : List Char)
  | text (s : String)
  | absent

/-- A constraint as it is written. -/
inductive Statement where
  | reference (column target : String)
  | range (some : Bool) (column : String) (low high : Written)
  | members (some : Bool) (column : String) (values : List Written)
  | notNull (column : String)
  | comparison (left : Written) (op : String) (right : Written)
  | implication (left : Written) (op : String) (right left' : Written) (op' : String)
      (right' : Written)
  | columns (kind : String) (columns : List Written)
  | override (column : String)

def column : Parser String := do
  let t ← token (afterPlain wordToken)
  word "."
  let c ← token (afterPlain wordToken)
  return String.ofList t ++ "." ++ String.ofList c

def number : Parser Written := do return .number (← token (afterPlain numberToken))

def date : Parser Written := do return .date (← token (afterPlain dateToken))

/-- A text without its first and last character, which are its quotes if it has any. -/
def text : Parser Written := do
  let t ← token afterText
  return .text (String.ofList ((t.drop 1).dropLast))

def nullText : Parser Written := do
  let t ← token (afterPlain nullToken)
  return .text (String.ofList t)

def value : Parser Written :=
  anyOf [do return .name (← column), number, date, text, nullText]

def item : Parser Written := anyOf [text, number, nullText]

def operator : Parser String :=
  anyOf [do word ">"; return "gt", do word "<"; return "lt", do word "!="; return "neq",
    do word ">="; return "gte", do word "<="; return "lte", do word "^"; return "join",
    do word "="; return "equal"]

/-- One or more, with commas between them. -/
def separated {α : Type} (p : Parser α) : Nat → Parser (List α)
  | 0 => fun _ ↦ ⟨[], false⟩
  | fuel + 1 => do
    let a ← p
    anyOf [return [a], do
      word ","
      return a :: (← separated p fuel)]

/-- A list in brackets; an empty one has an absent member. -/
def bracketed (p : Parser Written) (open' close : String) : Parser (List Written) := do
  word open'
  let xs ← anyOf [fun cs ↦ separated p (cs.length + 1) cs, return [.absent]]
  word close
  return xs

def bounds (p : Parser Written) : Parser (Written × Written) := do
  word "["
  let lo ← p
  word ","
  let hi ← p
  word "]"
  return (lo, hi)

def range : Parser (Written × Written) := anyOf [bounds number, bounds date]

def statement : Parser Statement :=
  let items : Parser (List Written) := bracketed item "\x7b" "\x7d"
  let columnList (kind : String) : Parser Statement := do
    word kind
    return .columns kind (← bracketed (do return .name (← column)) "(" ")")
  anyOf [
    do
      let c ← column
      word "<-"
      anyOf [do return .reference c (← column),
        do let r ← range; return .range false c r.1 r.2,
        do return .members false c (← items)],
    do
      let c ← column
      word "->"
      anyOf [do return .members true c (← items),
        do let r ← range; return .range true c r.1 r.2],
    do
      let c ← column
      word "!="
      let _ ← token (afterPlain nullToken)
      return .notNull c,
    do
      let l ← value
      let o ← operator
      return .comparison l o (← value),
    columnList "unique", columnList "inc", columnList "consec", columnList "dec",
    do
      let c ← column
      word "|"
      anyOf [word "int+", word "varchar+"]
      let _ ← token (afterPlain nullToken)
      return .override c,
    do
      let l ← value
      let o ← operator
      let r ← value
      word "=>"
      let l' ← value
      let o' ← operator
      return .implication l o r l' o' (← value)]

/-- What follows a constraint: nothing, or a semicolon and, if there is more text, what `more` reads. -/
def following (more : List Char → Option (List Statement)) (cs : List Char) : Option (List Statement) :=
  match skipBlanks cs with
  | [] => some []
  | ';' :: cs => if (skipBlanks cs).isEmpty then some [] else more (skipBlanks cs)
  | _ => none

/-- The first reading that leaves nothing but blanks. -/
def statements : Nat → List Char → Option (List Statement)
  | 0, _ => none
  | fuel + 1, cs => (statement cs).found.findSome? fun x ↦ (following (statements fuel) x.2).map (x.1 :: ·)

/-- Whether some reading reached the end of a text that cannot be read. -/
def reachesEnd : Nat → List Char → Bool
  | 0, _ => false
  | fuel + 1, cs =>
    let r := statement cs
    r.ended || r.found.any fun x ↦
      match skipBlanks x.2 with
      | ';' :: cs => reachesEnd fuel cs
      | _ => false

/-! ## Meaning -/

/-- The double nearest to a decimal, with ties to even. -/
def realOf (whole frac : List Char) (e : Int) : Float :=
  let digits := (whole ++ frac).map fun c ↦ c.toNat - 48
  let e := e - frac.length
  Float.ofScientific (natOfDigits digits) (e < 0) e.natAbs

/-- The number that a token stands for. A whole number other than zero starts with no zero. -/
def readNumber (cs : List Char) : Outcome Value :=
  let (negative, cs) := match cs with
    | '-' :: r => (true, r)
    | '+' :: r => (false, r)
    | r => (false, r)
  let isDigit (c : Char) : Bool := '0' ≤ c && c ≤ '9'
  let whole := cs.takeWhile isDigit
  let rest := cs.dropWhile isDigit
  if rest.isEmpty then
    if whole.head? = some '0' && whole.any (· != '0') then .error (.unresolved "")
    else
      match readDigits? whole with
      | some n => .ok (.int (if negative then -(n : Int) else n))
      | none => .error (.unresolved "")
  else
    let (frac, rest) := match rest with
      | '.' :: r => (r.takeWhile isDigit, r.dropWhile isDigit)
      | r => ([], r)
    let e : Int := match rest.drop 1 with
      | '-' :: ds => -((readDigits? ds).getD 0 : Int)
      | '+' :: ds => (readDigits? ds).getD 0
      | ds => (readDigits? ds).getD 0
    let x := realOf whole frac e
    .ok (.float (if negative then -x else x))

def meaning : Written → Outcome Value
  | .name s => .ok (.str s)
  | .text s => .ok (.str s)
  | .number cs => readNumber cs
  | .date cs =>
    match Date.ofMoment? (String.ofList cs) with
    | some d => .ok (.date d)
    | none => .error .badValue
  | .absent => .ok .null

def Statement.meaning : Statement → Outcome Constraint
  | .reference c t => .ok (.reference c t)
  | .range exists' c lo hi => do
    let lo ← Constraint.meaning lo
    let hi ← Constraint.meaning hi
    return if exists' then .reachesRange c lo hi else .domain c lo hi
  | .members exists' c vs => do
    let vs ← vs.mapM Constraint.meaning
    return if exists' then .reaches c vs else .enumeration c vs
  | .notNull c => .ok (.notNull c)
  | .comparison l o r => do
    let l ← Constraint.meaning l
    return .comparison o l (← Constraint.meaning r)
  | .implication l o r l' o' r' => do
    let l ← Constraint.meaning l
    let r ← Constraint.meaning r
    let l' ← Constraint.meaning l'
    return .implication l o r l' o' (← Constraint.meaning r')
  | .columns kind cs => do
    let cs ← cs.mapM Constraint.meaning
    return match kind with
      | "unique" => .distinct cs
      | "inc" => .increasing cs
      | "dec" => .decreasing cs
      | _ => .consecutive cs
  | .override c => .ok (.override c)

def read (s : String) : Outcome (List Constraint) :=
  match statements (s.length + 1) (skipBlanks s.toList) with
  | some ss =>
    match ss.mapM Statement.meaning with
    | .ok cs => .ok cs
    | .error f => .error (.meaningless f)
  | none => if reachesEnd (s.length + 1) s.toList then .error .unexpectedEnd else .error .unexpectedCharacter

/-- The constraints of a document that lists constraint texts under names, and a message for each
text that is none. A document of another form lists nothing. -/
def ofDocument (file : String) : Value → List Value × List String
  | .object es => es.foldl (fun (cs, messages) (_, v) ↦
      let outcome := match v with
        | .str s => read s
        | _ => .error .wrongKind
      match outcome with
      | .ok more => (cs ++ more.map tree, messages)
      | .error _ => (cs, messages ++ [s!"Unknown constraint {v.text} from {file}"])) ([], [])
  | _ => ([], [])

end QueryEquiv.Constraint
