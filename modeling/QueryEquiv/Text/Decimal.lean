/-!
# Shortest decimals

A floating-point number is written with the fewest significant digits that read back as the same
number, and of those decimals the one nearest to it. The search runs in exact arithmetic: a number
is `mantissa * 2 ^ exponent`, the reals that round to it form an interval around it, and for one,
two, … digits the two decimals next to it are tested against that interval.
-/

namespace QueryEquiv.Text

/-! ## Binary numbers and the interval that rounds to them -/

/-- A positive number `mantissa * 2 ^ exponent`. `closeBelow` says that the neighbour below is at
half the distance of the neighbour above, which is so at a power of two. -/
structure Binary where
  mantissa : Nat
  exponent : Int
  closeBelow : Bool

/-- The magnitude of a finite double, read off its bits; `none` for zero. -/
def Binary.ofBits (bits : UInt64) : Option Binary :=
  let n := bits.toNat
  let fraction : Nat := n % Nat.pow 2 52
  let field : Nat := n / Nat.pow 2 52 % Nat.pow 2 11
  if field = 0 then
    if fraction = 0 then none else some ⟨fraction, -1074, false⟩
  else
    some ⟨Nat.pow 2 52 + fraction, (field : Int) - 1075, fraction = 0 && field > 1⟩

/-- A number and the ends of its rounding interval over one denominator. -/
structure Rounding where
  value : Nat
  low : Nat
  high : Nat
  denominator : Nat
  closed : Bool

def Binary.rounding (b : Binary) : Rounding :=
  let up := Nat.pow 2 (b.exponent - 2).toNat
  { value := 4 * b.mantissa * up
    low := (4 * b.mantissa - if b.closeBelow then 1 else 2) * up
    high := (4 * b.mantissa + 2) * up
    denominator := Nat.pow 2 (2 - b.exponent).toNat
    closed := b.mantissa % 2 = 0 }

/-! ## The decimal grid -/

/-- The largest `e` with `10 ^ e ≤ value / denominator`. -/
def Rounding.magnitude (r : Rounding) : Int :=
  let whole := r.value / r.denominator
  if whole = 0 then
    let rec below : Nat → Nat → Nat → Int
      | 0, k, _ => -(k : Int)
      | fuel + 1, k, v => if r.denominator ≤ v then -(k : Int) else below fuel (k + 1) (v * 10)
    below 400 1 (r.value * 10)
  else ((Nat.toDigits 10 whole).length : Int) - 1

/-- The decimal `digits * 10 ^ exponent`. -/
structure Decimal where
  digits : Nat
  exponent : Int

/-- The decimal on the grid `10 ^ e` that lies in the rounding interval, the nearer one if both
neighbours do. -/
def Rounding.onGrid (r : Rounding) (e : Int) : Option Decimal :=
  let finer := Nat.pow 10 (-e).toNat
  let unit := r.denominator * Nat.pow 10 e.toNat
  let below := r.value * finer / unit
  let inside (d : Nat) : Bool :=
    if r.closed then r.low * finer ≤ d * unit && d * unit ≤ r.high * finer
    else r.low * finer < d * unit && d * unit < r.high * finer
  let twice := 2 * (r.value * finer)
  let middle := (2 * below + 1) * unit
  match inside below, inside (below + 1) with
  | true, false => some ⟨below, e⟩
  | false, true => some ⟨below + 1, e⟩
  | true, true =>
    if twice < middle || (twice = middle && below % 2 = 0) then some ⟨below, e⟩
    else some ⟨below + 1, e⟩
  | false, false => none

/-- The first grid with a decimal in the interval, coarsest first. -/
def Rounding.shortest (r : Rounding) : Decimal :=
  let top := r.magnitude
  ((List.range 17).findSome? fun (n : Nat) ↦ r.onGrid (top - n)).getD ⟨0, 0⟩

/-! ## Text -/

def zeros (n : Nat) : String := String.ofList (List.replicate n '0')

/-- Significant digits without trailing zeros, and where the decimal point stands relative to their
first one. -/
def Decimal.significant (d : Decimal) : List Char × Int :=
  let ds := Nat.toDigits 10 d.digits
  let kept := (ds.reverse.dropWhile (· == '0')).reverse
  (if kept.isEmpty then ['0'] else kept, ds.length + d.exponent)

/-- Positional when the leading digit stands for `10 ^ (-4)` to `10 ^ 15`, with at least one digit
after the point; otherwise with an exponent of at least two digits and its sign. -/
def Decimal.text (d : Decimal) : String :=
  let (ds, point) := d.significant
  let n := ds.length
  if -4 < point && point ≤ 16 then
    if point ≤ 0 then "0." ++ zeros (-point).toNat ++ String.ofList ds
    else if (n : Int) ≤ point then String.ofList ds ++ zeros (point - n).toNat ++ ".0"
    else String.ofList (ds.take point.toNat) ++ "." ++ String.ofList (ds.drop point.toNat)
  else
    let e := point - 1
    let size := toString e.natAbs
    let size := if size.length < 2 then "0" ++ size else size
    let tail := if n ≤ 1 then "" else "." ++ String.ofList (ds.drop 1)
    String.ofList (ds.take 1) ++ tail ++ "e" ++ (if e < 0 then "-" else "+") ++ size

def floatText (x : Float) : String :=
  if x.isNaN then "nan"
  else
    let sign := if x.toBits.toNat / Nat.pow 2 63 = 1 then "-" else ""
    if x.isInf then sign ++ "inf"
    else
      match Binary.ofBits x.toBits with
      | none => sign ++ "0.0"
      | some b => sign ++ b.rounding.shortest.text

end QueryEquiv.Text
