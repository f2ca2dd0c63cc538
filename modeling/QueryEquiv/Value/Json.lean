import QueryEquiv.Text.Hash
import QueryEquiv.Value

/-!
# Values as JSON

Reading keeps the order of the entries of objects and tells `1` from `1.0`. JSON has no dates, no times
of day and no way to tell a floating-point number from an integer in every reader, so these are objects
with a single entry, whose key is marked with a dollar sign.
-/

namespace QueryEquiv.Json

open Text

/-! ## Reading -/

private def isBlank (c : Char) : Bool := c == ' ' || c == '\t' || c == '\n' || c == '\r'

private def hexDigit (c : Char) : Nat :=
  if c.isDigit then c.toNat - 48 else if 'a' ≤ c && c ≤ 'f' then c.toNat - 87 else c.toNat - 55

private def hexNumber (cs : List Char) : Nat := cs.foldl (fun n c ↦ n * 16 + hexDigit c) 0

private def escaped : Char → Char
  | 'n' => '\n'
  | 't' => '\t'
  | 'r' => '\r'
  | 'b' => Char.ofNat 8
  | 'f' => Char.ofNat 12
  | c => c

/-- The code units of the rest of a text after its opening quote, last first. -/
private def readUnits (acc : List Nat) : List Char → Option (List Nat × List Char)
  | [] => none
  | '"' :: rest => some (acc, rest)
  | '\\' :: 'u' :: a :: b :: c :: d :: rest => readUnits (hexNumber [a, b, c, d] :: acc) rest
  | '\\' :: c :: rest => readUnits ((escaped c).toNat :: acc) rest
  | c :: rest => readUnits (c.toNat :: acc) rest

/-- Puts the characters of code units, last first, before others; two surrogates are one character. -/
private def assemble (acc : List Char) : List Nat → List Char
  | [] => acc
  | low :: high :: rest =>
    if 0xD800 ≤ high && high < 0xDC00 && 0xDC00 ≤ low && low < 0xE000 then
      assemble (Char.ofNat (0x10000 + (high - 0xD800) * 1024 + (low - 0xDC00)) :: acc) rest
    else assemble (Char.ofNat low :: acc) (high :: rest)
  | [unit] => Char.ofNat unit :: acc

/-- The rest of a text after its opening quote. -/
private def readText (cs : List Char) : Option (String × List Char) :=
  (readUnits [] cs).map fun (units, rest) ↦ (String.ofList (assemble [] units), rest)

private def natural (cs : List Char) : Nat := cs.foldl (fun n c ↦ n * 10 + (c.toNat - 48)) 0

/-- A number without a point and without an exponent is an integer. -/
private def number (cs : List Char) : Value :=
  let (negative, cs) := match cs with
    | '-' :: r => (true, r)
    | r => (false, r)
  let whole := cs.takeWhile Char.isDigit
  let rest := cs.dropWhile Char.isDigit
  if rest.isEmpty then
    let n : Int := natural whole
    .int (if negative then -n else n)
  else
    let (fraction, rest) := match rest with
      | '.' :: r => (r.takeWhile Char.isDigit, r.dropWhile Char.isDigit)
      | r => ([], r)
    let e : Int := match rest with
      | _ :: '-' :: ds => -(natural ds : Int)
      | _ :: '+' :: ds => natural ds
      | _ :: ds => natural ds
      | [] => 0
    let e := e - fraction.length
    let x := Float.ofScientific (natural (whole ++ fraction)) (e < 0) e.natAbs
    .float (if negative then -x else x)

private def isNumberPart (c : Char) : Bool :=
  c.isDigit || c == '-' || c == '+' || c == '.' || c == 'e' || c == 'E'

/-- Later entries replace earlier ones under the same key; entries are collected in reverse. -/
private def putEntry (k : String) (v : Value) (es : List (String × Value)) : List (String × Value) :=
  if es.any (·.1 == k) then es.map (fun e ↦ if e.1 == k then (k, v) else e) else (k, v) :: es

mutual

private def readValue : Nat → List Char → Option (Value × List Char)
  | 0, _ => none
  | fuel + 1, cs =>
    match cs.dropWhile isBlank with
    | '\x7b' :: rest =>
      match rest.dropWhile isBlank with
      | '\x7d' :: rest => some (.object [], rest)
      | rest => readEntries fuel [] rest
    | '[' :: rest =>
      match rest.dropWhile isBlank with
      | ']' :: rest => some (.list [], rest)
      | rest => readItems fuel [] rest
    | '"' :: rest => (readText rest).map fun (s, rest) ↦ (.str s, rest)
    | 't' :: 'r' :: 'u' :: 'e' :: rest => some (.bool true, rest)
    | 'f' :: 'a' :: 'l' :: 's' :: 'e' :: rest => some (.bool false, rest)
    | 'n' :: 'u' :: 'l' :: 'l' :: rest => some (.null, rest)
    | rest =>
      let digits := rest.takeWhile isNumberPart
      if digits.isEmpty then none else some (number digits, rest.drop digits.length)

private def readItems : Nat → List Value → List Char → Option (Value × List Char)
  | 0, _, _ => none
  | fuel + 1, acc, cs =>
    match readValue fuel cs with
    | none => none
    | some (v, rest) =>
      match rest.dropWhile isBlank with
      | ',' :: rest => readItems fuel (v :: acc) rest
      | ']' :: rest => some (.list (v :: acc).reverse, rest)
      | _ => none

private def readEntries : Nat → List (String × Value) → List Char → Option (Value × List Char)
  | 0, _, _ => none
  | fuel + 1, acc, cs =>
    match cs.dropWhile isBlank with
    | '"' :: rest =>
      match readText rest with
      | none => none
      | some (k, rest) =>
        match rest.dropWhile isBlank with
        | ':' :: rest =>
          match readValue fuel rest with
          | none => none
          | some (v, rest) =>
            match rest.dropWhile isBlank with
            | ',' :: rest => readEntries fuel (putEntry k v acc) rest
            | '\x7d' :: rest => some (.object (putEntry k v acc).reverse, rest)
            | _ => none
        | _ => none
    | _ => none

end

/-- The value that a text starts with. -/
def read? (s : String) : Option Value := (readValue (s.length + 1) s.toList).map (·.1)

mutual

/-- Turns marked objects into dates and times of day. -/
def unmark : Value → Value
  | .object [("$date", .str s)] => ((Date.ofMoment? s).map Value.date).getD .null
  | .object [("$time", .str s)] => ((TimeOfDay.read? s.toList).map Value.time).getD .null
  | .object es => .object (unmarkEntries es)
  | .list xs => .list (unmarkItems xs)
  | v => v

private def unmarkItems : List Value → List Value
  | [] => []
  | v :: vs => unmark v :: unmarkItems vs

private def unmarkEntries : List (String × Value) → List (String × Value)
  | [] => []
  | (k, v) :: es => (k, unmark v) :: unmarkEntries es

end

/-! ## Writing -/

/-- How JSON is laid out: with blanks after separators or without, and in ASCII only or not. -/
structure Layout where
  spaced : Bool := false
  ascii : Bool := false

private def escapedChar (l : Layout) (c : Char) : String :=
  if c == '"' then "\\\""
  else if c == '\\' then "\\\\"
  else if c == '\n' then "\\n"
  else if c == '\t' then "\\t"
  else if c == '\r' then "\\r"
  else if c.toNat == 8 then "\\b"
  else if c.toNat == 12 then "\\f"
  else if c.toNat < 32 then "\\u" ++ hex 4 c.toNat
  else if !l.ascii || c.toNat < 127 then c.toString
  else if c.toNat < 0x10000 then "\\u" ++ hex 4 c.toNat
  else
    let n := c.toNat - 0x10000
    "\\u" ++ hex 4 (0xD800 + n / 1024) ++ "\\u" ++ hex 4 (0xDC00 + n % 1024)

private def addText (l : Layout) (acc s : String) : String :=
  (s.foldl (fun acc c ↦ acc ++ escapedChar l c) (acc.push '"')).push '"'

private def addKey (l : Layout) (acc key : String) : String :=
  addText l acc key ++ if l.spaced then ": " else ":"

private def addMark (l : Layout) (acc key s : String) : String :=
  (addText l (addKey l (acc.push '\x7b') key) s).push '\x7d'

private def separator (l : Layout) : String := if l.spaced then ", " else ","

mutual

private def addValue (l : Layout) (acc : String) : Value → String
  | .null => acc ++ "null"
  | .bool b => acc ++ if b then "true" else "false"
  | .int n => acc ++ toString n
  | .float x => addMark l acc "$float" (floatText x)
  | .str s => addText l acc s
  | .date d => addMark l acc "$date" d.text
  | .time t => addMark l acc "$time" t.text
  | .list xs => (addItems l (acc.push '[') true xs).push ']'
  | .object es => (addEntries l (acc.push '\x7b') true es).push '\x7d'
  | .inline n cs rows =>
    let acc := addValue l (addKey l ((addKey l (acc.push '\x7b') "$values").push '\x7b') "name") n
    let acc := addItems l ((addKey l (acc ++ separator l) "attributes").push '[') true cs
    let acc := addItems l ((addKey l (acc ++ "]" ++ separator l) "rows").push '[') true rows
    acc ++ "]\x7d\x7d"

private def addItems (l : Layout) (acc : String) (first : Bool) : List Value → String
  | [] => acc
  | v :: vs => addItems l (addValue l (if first then acc else acc ++ separator l) v) false vs

private def addEntries (l : Layout) (acc : String) (first : Bool) : List (String × Value) → String
  | [] => acc
  | (k, v) :: es =>
    let acc := addKey l (if first then acc else acc ++ separator l) k
    addEntries l (addValue l acc v) false es

end

def write (l : Layout) (v : Value) : String := addValue l "" v

end QueryEquiv.Json
