import QueryEquiv.Text.Class

/-!
# Reading integers

The integers that a text denotes: blanks around it, an optional sign, then decimal digits of any
script, with single underscores allowed between two digits. Texts of more than 4300 digits are
refused.
-/

namespace QueryEquiv.Text

/-- Blanks that may surround a number. A text of ASCII characters alone is trimmed of the six ASCII
blanks only. -/
def trimNumber (cs : List Char) : List Char :=
  let blank (c : Char) : Bool :=
    if cs.all (fun d ↦ d.toNat < 128) then c.toNat == 32 || (9 ≤ c.toNat && c.toNat ≤ 13)
    else isBlank c
  ((cs.dropWhile blank).reverse.dropWhile blank).reverse

/-- The values of the digits of `cs`, most significant first; `afterDigit` says whether an
underscore may stand here. -/
def digitRun : Bool → List Char → Option (List Nat)
  | afterDigit, [] => if afterDigit then some [] else none
  | afterDigit, c :: rest =>
    if c == '_' then
      if afterDigit then digitRun false rest else none
    else
      match digitValue? c with
      | some d => (digitRun true rest).map (d :: ·)
      | none => none

def natOfDigits (ds : List Nat) : Nat := ds.foldl (fun n d ↦ n * 10 + d) 0

/-- The natural number written by a non-empty run of digits. -/
def readDigits? (cs : List Char) : Option Nat :=
  (digitRun false cs).bind fun ds ↦ if ds.length ≤ 4300 then some (natOfDigits ds) else none

def readInt? (s : String) : Option Int :=
  match trimNumber s.toList with
  | '-' :: rest => (readDigits? rest).map fun n ↦ -(n : Int)
  | '+' :: rest => (readDigits? rest).map fun n ↦ (n : Int)
  | cs => (readDigits? cs).map fun n ↦ (n : Int)

end QueryEquiv.Text
