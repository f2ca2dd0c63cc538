import QueryEquiv.Text.Class

/-!
# Patterns

Patterns over characters, matched by backtracking. A pattern tries its alternatives in order and
takes the first that lets the rest of the pattern match, so a greedy repetition gives characters
back only when it has to, and a match is determined by the pattern and not only by its language.

Matching passes the rest of the text to a continuation. A repetition goes on only while its body
consumes something, which bounds it by the length of the text.
-/

namespace QueryEquiv.Text

inductive Pattern where
  | one (accepts : Char → Bool)
  | empty
  | seq (first second : Pattern)
  /-- The first alternative is preferred. -/
  | alt (first second : Pattern)
  /-- As many copies as possible, or as few. -/
  | many (greedy : Bool) (body : Pattern)

namespace Pattern

/-! ## Building patterns -/

def char (c : Char) : Pattern := one (· == c)

def ofChars : List Char → Pattern
  | [] => empty
  | c :: cs => seq (char c) (ofChars cs)

/-- The text itself. -/
def lit (s : String) : Pattern := ofChars s.toList

def seqs : List Pattern → Pattern
  | [] => empty
  | [p] => p
  | p :: ps => seq p (seqs ps)

/-- One of several patterns, the earlier preferred; none of an empty list matches. -/
def alts : List Pattern → Pattern
  | [] => one fun _ ↦ false
  | [p] => p
  | p :: ps => alt p (alts ps)

def star (p : Pattern) : Pattern := many true p

def plus (p : Pattern) : Pattern := seq p (star p)

/-- One copy or more, as few as possible. -/
def lazyPlus (p : Pattern) : Pattern := seq p (many false p)

def opt (p : Pattern) : Pattern := alt p empty

/-- From `lo` to `lo + extra` copies, as many as possible. -/
def between (lo : Nat) (p : Pattern) : Nat → Pattern
  | 0 => seqs (List.replicate lo p)
  | extra + 1 => alt (seqs (List.replicate (lo + extra + 1) p)) (between lo p extra)

def blank : Pattern := one isBlank

def visible : Pattern := one fun c ↦ !isBlank c

def digit : Pattern := one isDecimalDigit

def inLine : Pattern := one (· != '\n')

/-! ## Matching -/

/-- Repeats `step` at most `fuel` times, then continues; a step that consumes nothing ends the
repetition. -/
def iterate {β : Type} (step : List Char → (List Char → Option β) → Option β) (greedy : Bool) :
    Nat → List Char → (List Char → Option β) → Option β
  | 0, cs, k => k cs
  | fuel + 1, cs, k =>
    let again (_ : Unit) : Option β :=
      step cs fun rest ↦
        if rest.length < cs.length then iterate step greedy fuel rest k else none
    if greedy then
      match again () with
      | some r => some r
      | none => k cs
    else
      match k cs with
      | some r => some r
      | none => again ()

/-- Matches a pattern at the front of a text and hands what follows to the continuation. -/
def run {β : Type} : Pattern → List Char → (List Char → Option β) → Option β
  | one p, cs, k =>
    match cs with
    | c :: rest => if p c then k rest else none
    | [] => none
  | empty, cs, k => k cs
  | seq a b, cs, k => run a cs fun rest ↦ run b rest k
  | alt a b, cs, k =>
    match run a cs k with
    | some r => some r
    | none => run b cs k
  | many greedy a, cs, k => iterate (fun xs h ↦ run a xs h) greedy cs.length cs k

/-- What follows the match at the front of `cs`. -/
def after? (p : Pattern) (cs : List Char) : Option (List Char) := p.run cs some

/-- The match at the front of `cs` and what follows it. -/
def match? (p : Pattern) (cs : List Char) : Option (List Char × List Char) :=
  (p.after? cs).map fun rest ↦ (cs.take (cs.length - rest.length), rest)

def matchesAll (p : Pattern) (cs : List Char) : Bool :=
  (p.run cs fun rest ↦ if rest.isEmpty then some () else none).isSome

/-- A part of a text with what stands before and after it. -/
structure Found where
  before : List Char
  text : List Char
  after : List Char

/-- The leftmost match. -/
def find? (p : Pattern) : List Char → Option Found
  | [] => (p.match? []).map fun (m, rest) ↦ ⟨[], m, rest⟩
  | c :: cs =>
    match p.match? (c :: cs) with
    | some (m, rest) => some ⟨[], m, rest⟩
    | none => (p.find? cs).map fun f ↦ { f with before := c :: f.before }

/-- The text cut at its matches, left to right: each match with the text before it, and the text
after the last. `fuel` bounds the number of matches. -/
def cutWith (p : Pattern) : Nat → List Char → List (List Char × List Char) × List Char
  | 0, cs => ([], cs)
  | fuel + 1, cs =>
    match p.find? cs with
    | some f =>
      if f.text.isEmpty then ([], cs)
      else
        let (cuts, last) := cutWith p fuel f.after
        ((f.before, f.text) :: cuts, last)
    | none => ([], cs)

def cut (p : Pattern) (cs : List Char) : List (List Char × List Char) × List Char :=
  p.cutWith cs.length cs

/-- All matches that do not overlap, left to right. -/
def findAll (p : Pattern) (cs : List Char) : List (List Char) := (p.cut cs).1.map (·.2)

/-- Every match replaced by the same text. -/
def replaceAll (p : Pattern) (by' cs : List Char) : List Char :=
  let (cuts, last) := p.cut cs
  cuts.foldr (fun (before, _) rest ↦ before ++ by' ++ rest) last

end Pattern

/-! ## Plain text -/

/-- Every occurrence of `old`, left to right, replaced by `new`, at most `limit` of them. -/
def replaceText (old new : List Char) (limit : Nat) (cs : List Char) : List Char :=
  let (cuts, last) := (Pattern.ofChars old).cutWith (min limit cs.length) cs
  cuts.foldr (fun (before, _) rest ↦ before ++ new ++ rest) last

/-- Replaces all occurrences of a non-empty text. -/
def replace (s old new : String) : String :=
  String.ofList (replaceText old.toList new.toList s.length s.toList)

def occursIn (part s : String) : Bool := ((Pattern.lit part).find? s.toList).isSome

end QueryEquiv.Text
