/-!
# Character classes

The classes of characters that reading and quoting text depend on: blanks, decimal digits,
printable characters and the characters of words. Each class is a table over code points, so
membership is decidable for every character and not only for the ASCII ones.
-/

namespace QueryEquiv.Text

/-! ## Blanks -/

/-- White space: the characters that separate words and that trimming removes. -/
def isBlank (c : Char) : Bool :=
  let n := c.toNat
  (9 ≤ n && n ≤ 13) || (28 ≤ n && n ≤ 32) || n == 133 || n == 160 || n == 5760 ||
    (8192 ≤ n && n ≤ 8202) || n == 8232 || n == 8233 || n == 8239 || n == 8287 || n == 12288

/-! ## Decimal digits -/

/-- The digit zero of every script that writes decimal numbers; the digits one to nine follow it. -/
def zeroDigits : Array Nat := #[
  48,1632,1776,1984,2406,2534,2662,2790,2918,3046,3174,3302,3430,3558,3664,3792,3872,4160,4240,6112,6160,6470,6608,
  6784,6800,6992,7088,7232,7248,42528,43216,43264,43472,43504,43600,44016,65296,66720,68912,69734,69872,69942,70096,
  70384,70736,70864,71248,71360,71472,71904,72016,72784,73040,73120,92768,92864,93008,120782,120792,120802,120812,
  120822,123200,123632,125264,130032]

/-- The value of a decimal digit of any script. -/
def digitValue? (c : Char) : Option Nat :=
  let n := c.toNat
  if n < 128 then
    if 48 ≤ n && n ≤ 57 then some (n - 48) else none
  else
    (zeroDigits.find? fun z ↦ z ≤ n && n ≤ z + 9).map fun z ↦ n - z

def isDecimalDigit (c : Char) : Bool := (digitValue? c).isSome

/-! ## Printable characters -/

/-- Bounds in ascending order, from the distance of each to the one before it. -/
def ascending (gaps : Array Nat) : Array Nat :=
  (gaps.foldl (fun (bounds, last) gap ↦ (bounds.push (last + gap), last + gap)) (#[], 0)).1

/-- Where the class changes between printable and not, starting with the first character that is not printable. -/
def printableBounds : Array Nat := ascending #[
  0,32,95,34,12,1,714,2,6,4,7,1,1,1,20,1,397,1,38,2,50,2,3,1,55,8,27,4,6,17,22,1,192,1,48,2,59,2,101,14,59,2,49,2,15,
  1,28,2,1,1,11,5,31,9,74,1,161,1,8,2,2,2,22,1,7,1,1,3,4,2,9,2,2,2,4,8,1,4,2,1,5,2,25,2,3,1,6,4,2,2,22,1,7,1,2,1,2,1,
  2,2,1,1,5,4,2,2,3,3,1,7,4,1,1,7,17,10,3,1,9,1,3,1,22,1,7,1,2,1,5,2,10,1,3,1,3,2,1,15,4,2,12,7,7,1,3,1,8,2,2,2,22,1,
  7,1,2,1,5,2,9,2,2,2,3,7,3,4,2,1,5,2,18,10,2,1,6,3,3,1,4,3,2,1,1,1,2,3,2,3,3,3,12,4,5,3,3,1,4,2,1,6,1,14,21,5,13,1,3,
  1,23,1,16,2,9,1,3,1,4,7,2,1,3,2,1,2,4,2,10,7,22,1,3,1,23,1,10,1,5,2,9,1,3,1,4,7,2,6,2,1,4,2,10,1,2,13,13,1,3,1,51,1,
  3,1,6,4,16,2,26,1,3,1,18,3,24,1,9,1,1,2,7,3,1,4,6,1,1,1,8,6,10,2,3,12,58,4,29,37,2,1,1,1,5,1,24,1,1,1,23,2,5,1,1,1,
  6,2,10,2,4,32,72,1,36,4,39,1,36,1,15,1,13,37,198,1,1,5,1,2,377,1,4,2,7,1,1,1,4,2,41,1,4,2,33,1,4,2,7,1,1,1,4,2,15,1,
  57,1,4,2,67,2,32,3,26,6,86,2,6,2,640,1,28,3,89,7,22,9,24,9,20,12,13,1,3,1,2,12,94,2,10,6,10,6,14,1,11,6,89,7,43,5,
  70,10,31,1,12,4,12,4,1,3,42,2,5,11,44,4,26,6,11,3,62,2,65,1,29,2,11,6,10,6,14,2,31,49,77,3,47,1,116,8,60,3,15,3,60,
  7,43,2,11,8,43,5,534,2,6,2,38,2,6,2,8,1,1,1,1,1,1,1,31,2,53,1,15,1,14,2,6,1,19,2,3,1,9,17,24,8,47,17,2,2,27,1,13,3,
  33,15,33,15,140,4,663,25,11,21,1812,2,32,1,349,5,45,1,1,5,1,2,56,7,2,14,24,9,7,1,7,1,7,1,7,1,7,1,7,1,7,1,7,1,126,34,
  26,1,89,12,214,26,12,5,63,1,86,2,103,5,43,1,94,1,84,12,47,1,29293,3,55,9,348,20,184,8,203,5,2,1,1,1,5,24,59,3,10,6,
  56,8,70,8,12,6,116,11,30,3,78,1,11,4,33,1,55,9,14,2,10,2,103,24,28,10,6,2,6,2,6,9,7,1,7,1,60,4,126,2,10,6,11172,12,
  23,4,49,8452,366,2,106,38,7,12,5,5,26,1,5,1,1,1,2,1,2,1,125,16,445,2,54,7,1,32,42,6,51,1,19,1,4,4,5,1,135,4,190,3,6,
  2,6,2,6,2,3,3,7,1,7,13,2,2,12,1,26,1,19,1,2,1,15,2,14,34,123,5,3,4,45,3,88,1,13,3,1,47,46,130,29,3,49,15,28,4,36,9,
  30,5,43,5,30,1,37,4,14,42,158,2,10,6,36,4,36,4,40,8,52,11,12,1,15,1,7,1,2,1,11,1,15,1,7,1,2,67,311,9,22,10,8,24,6,1,
  42,1,9,69,6,2,1,1,44,1,2,3,1,2,23,1,72,8,9,48,19,1,2,5,33,3,27,5,1,64,56,4,20,2,50,1,2,5,8,1,3,1,29,2,3,4,10,7,9,7,
  64,32,39,4,12,9,54,3,29,2,27,5,26,7,4,12,7,80,73,55,51,13,51,7,46,8,10,294,31,1,42,1,3,2,2,78,40,8,42,22,26,38,28,
  20,23,9,78,4,36,9,62,1,5,13,25,7,10,6,53,1,18,8,39,9,96,1,20,11,18,1,44,65,7,1,1,1,4,1,15,1,11,6,59,5,10,6,4,1,8,2,
  2,2,22,1,7,1,2,1,5,1,10,2,2,2,3,2,1,6,1,5,7,2,7,3,5,139,92,1,5,30,72,8,10,166,54,2,38,34,69,11,10,6,13,19,58,6,10,
  54,27,2,15,4,23,185,60,100,83,12,8,2,1,2,8,1,2,1,30,1,2,2,12,9,10,70,8,2,46,2,11,27,72,8,83,13,73,263,9,1,45,1,14,
  10,29,3,32,2,22,1,14,73,7,1,2,1,44,3,1,1,2,1,9,8,10,6,6,1,2,1,37,1,2,1,6,7,10,310,25,183,1,15,50,13,923,102,111,1,5,
  11,196,2636,99,13,1071,4049,583,8633,569,7,31,1,10,4,81,1,10,6,30,2,6,10,70,10,10,1,7,1,21,5,19,688,91,101,75,4,57,
  7,17,64,5,11,2,14,6136,8,1238,42,9,8935,4,1,7,1,2,1,291,45,3,17,4,8,396,2308,107,5,13,3,9,7,10,2,4,4704,46,2,23,9,
  116,60,246,10,39,2,74,8,112,21,70,154,20,12,87,9,25,135,85,1,71,1,2,2,1,2,2,2,4,1,12,1,1,1,7,1,65,1,4,2,8,1,7,1,28,
  1,4,1,5,1,1,3,7,1,340,2,292,2,702,15,5,1,15,1104,31,225,7,1,17,2,7,1,2,1,5,213,45,3,14,2,10,4,2,320,31,17,58,5,1,
  1248,7,1,4,1,2,1,15,1,197,2,16,41,76,4,10,4,2,785,68,76,61,194,4,1,27,1,2,1,1,2,1,1,10,1,4,1,1,1,1,6,1,4,1,1,1,1,1,
  1,3,1,2,1,1,2,1,1,1,1,1,1,1,1,1,1,2,1,1,2,4,1,7,1,4,1,4,1,1,1,10,1,17,5,3,1,5,1,17,52,2,270,44,4,100,12,15,2,15,1,
  15,1,37,10,174,56,29,13,44,4,9,7,2,14,6,154,984,5,16,3,13,3,116,12,89,7,12,4,1,15,12,4,56,8,10,6,40,8,30,2,2,78,340,
  12,14,2,5,3,5,3,7,9,29,3,11,5,6,10,10,6,8,8,7,9,147,1,55,37,10,1030,42720,32,4153,7,222,2,5762,14,7473,3103,542,
  1506,4939,716213,240]

/-- How many bounds are at most `n`, by halving the part of the table that is still open. -/
def countBounds (bounds : Array Nat) (n : Nat) : Nat → Nat → Nat → Nat
  | 0, lo, _ => lo
  | fuel + 1, lo, hi =>
    if lo < hi then
      let mid := (lo + hi) / 2
      if bounds.getD mid 0 ≤ n then countBounds bounds n fuel (mid + 1) hi
      else countBounds bounds n fuel lo mid
    else lo

/-- Whether a character may stand in quoted text as itself. -/
def isPrintable (c : Char) : Bool :=
  let n := c.toNat
  if n < 127 then 32 ≤ n
  else countBounds printableBounds n 12 0 printableBounds.size % 2 == 0

/-! ## Words -/

/-- Where printable characters change between those of words and others, starting with the first one of a word. -/
def wordBounds : Array Nat := ascending #[
  48,10,7,26,4,1,1,26,47,1,7,2,1,1,3,2,1,3,1,23,1,31,1,458,4,12,14,5,7,1,1,1,129,5,1,8,1,5,2,1,1,110,1,139,8,208,6,41,
  71,35,45,43,21,10,4,2,1,99,1,1,15,2,7,15,2,1,16,1,1,30,29,89,11,58,9,2,4,3,3,22,4,1,9,1,3,1,23,25,7,40,1,15,8,42,58,
  54,3,1,18,1,7,10,4,10,1,16,4,55,1,1,16,9,5,6,4,12,2,6,2,1,8,55,29,23,2,3,16,55,1,1,18,18,4,10,9,1,11,55,1,1,30,6,4,
  10,1,17,1,59,18,7,15,13,18,55,1,1,26,10,4,17,1,7,1,1,4,55,1,1,31,5,4,26,4,55,2,1,16,1,5,3,1,10,4,19,1,7,4,69,28,12,
  15,48,1,2,12,7,9,10,39,48,1,2,9,11,8,49,31,20,12,49,23,5,115,43,20,11,6,6,4,4,3,1,3,2,7,3,4,13,12,1,1,10,6,91,1,609,
  12,39,16,96,1,620,2,44,5,75,3,36,13,19,14,18,14,18,14,52,35,1,4,1,3,32,16,117,2,34,1,118,38,152,34,23,9,53,43,32,7,
  1,93,47,17,21,41,30,13,56,26,36,28,62,2,64,41,4,1,6,1,2,3,198,64,445,1,1,3,11,3,13,3,13,5,11,115,10,5,11,6,16,98,1,
  4,1,2,10,1,1,3,5,6,1,1,1,1,1,1,4,1,11,2,4,5,5,4,1,1,58,726,60,78,22,630,30,1132,229,6,4,3,7,4,1,2,112,16,96,79,1,
  469,3,25,9,7,5,2,5,4,88,4,3,1,90,1,148,2,4,10,32,48,16,32,10,30,8,1,15,32,10,39,15,320,6592,64,22160,64,46,2,269,3,
  95,16,31,2,80,39,9,2,103,2,119,1,3,1,4,1,23,13,6,10,52,14,50,28,16,18,6,3,1,1,2,1,38,10,23,25,32,4,47,28,15,2,5,1,
  67,23,3,1,8,4,12,4,23,3,1,3,50,1,1,3,2,2,5,2,1,1,28,2,11,7,3,12,90,1,14,6,115,13,20270,1,10,1,136,33,363,18,127,33,
  12,116,145,15,10,7,26,6,26,11,122,32,256,7,48,9,57,17,2,244,96,1,149,10,31,1,48,1,414,1,743,1,31,2,166,1,31,65,129,
  15,40,8,16,16,31,1,72,1,28,6,5,16,57,7,89,16,379,12,379,5,150,11,4,27,18,46,80,3,53,26,30,1,2,2,10,4,45,32,48,3,36,
  15,10,4,1,2,44,3,10,3,48,14,4,11,11,1,1,4,75,84,41,7,47,17,16,5,54,2,1,18,7,6,5,158,53,18,4,5,10,5,81,20,2,1,232,41,
  4,36,48,20,28,32,43,13,1,7,93,19,12,4,236,116,144,15,1,1,1,14,129,16,1,1,1,28,1,10,40,7,1,21,1,11,46,19,1,18,383,17,
  1,15,32,2,32,110,49,21,1,9,58,14,347,189,37,43,1136,16,2929,15,14958,2,128,16,48,16,4,12,839,105,79,1,1,66,79,1,1,
  28,19612,5700,32,96,865,1,25,1,31,1,25,1,31,1,25,1,31,1,25,1,31,1,25,1,60,1792,256,256,48,7,24,321,30,18,44,4,15,
  1249,240,48,68,7,19,787,59,1,3,1,125,1,449,528,13,2787,787728]

/-- Letters, digits and the underscore. -/
def isWord (c : Char) : Bool :=
  if c.toNat < 128 then c.isAlphanum || c == '_'
  else isPrintable c && countBounds wordBounds c.toNat 12 0 wordBounds.size % 2 == 1

/-- What an identifier may start with. -/
def isWordStart (c : Char) : Bool := isWord c && !isDecimalDigit c

/-- A text without the blanks at its two ends. -/
def trim (cs : List Char) : List Char := ((cs.dropWhile isBlank).reverse.dropWhile isBlank).reverse

end QueryEquiv.Text
