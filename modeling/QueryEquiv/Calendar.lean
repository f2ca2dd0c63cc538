import QueryEquiv.Text.Pattern
import QueryEquiv.Text.Integer

/-!
# Dates and times of day

Dates of the Gregorian calendar from year 1 to year 9999, as triples and as numbers of days, and
times of day. A date enters a formula as the number of days since 1 January 1000, and leaves it the
same way, so `Date.ofDays` and `Date.days` are inverse to each other on the dates there are.
-/

namespace QueryEquiv

open Text

/-! ## Dates -/

structure Date where
  year : Nat
  month : Nat
  day : Nat
  deriving DecidableEq, Repr

def isLeapYear (y : Nat) : Bool := y % 4 = 0 && (y % 100 ≠ 0 || y % 400 = 0)

def daysInMonth (y m : Nat) : Nat :=
  if m = 2 then (if isLeapYear y then 29 else 28)
  else if m = 4 || m = 6 || m = 9 || m = 11 then 30
  else 31

/-- Days of the years before `y`, counted from year 1. -/
def daysBeforeYear (y : Nat) : Nat := (y - 1) * 365 + (y - 1) / 4 - (y - 1) / 100 + (y - 1) / 400

/-- Days of the months before `m` in year `y`. -/
def daysBeforeMonth (y m : Nat) : Nat :=
  (List.range (m - 1)).foldl (fun days i ↦ days + daysInMonth y (i + 1)) 0

namespace Date

def isValid (d : Date) : Bool :=
  1 ≤ d.year && d.year ≤ 9999 && 1 ≤ d.month && d.month ≤ 12 && 1 ≤ d.day &&
    d.day ≤ daysInMonth d.year d.month

/-- The number of the day, 1 January of year 1 being day 1. -/
def ordinal (d : Date) : Nat := daysBeforeYear d.year + daysBeforeMonth d.year d.month + d.day

/-- The month and day of the `n`-th day of year `y`, counted from zero. -/
def inYear (y n : Nat) : Date :=
  let rec go : Nat → Nat → Nat → Date
    | 0, m, n => ⟨y, m, n + 1⟩
    | fuel + 1, m, n =>
      if n < daysInMonth y m then ⟨y, m, n + 1⟩ else go fuel (m + 1) (n - daysInMonth y m)
  go 11 1 n

/-- The date with a given number, by periods of 400, 100, 4 and 1 years. -/
def ofOrdinal (o : Nat) : Date :=
  let n := o - 1
  let (n400, n) := (n / 146097, n % 146097)
  let (n100, n) := (n / 36524, n % 36524)
  let (n4, n) := (n / 1461, n % 1461)
  let (n1, n) := (n / 365, n % 365)
  let y := n400 * 400 + n100 * 100 + n4 * 4 + n1 + 1
  if n1 = 4 || n100 = 4 then ⟨y - 1, 12, 31⟩ else inYear y n

def first : Date := ⟨1, 1, 1⟩

def last : Date := ⟨9999, 12, 31⟩

/-- The day that stands for zero in formulas. -/
def epoch : Date := ⟨1000, 1, 1⟩

/-- Days since the epoch. -/
def days (d : Date) : Int := (d.ordinal : Int) - epoch.ordinal

/-- The date so many days after the epoch; beyond the calendar, its last or first day. -/
def ofDays (n : Int) : Date :=
  let o := n + epoch.ordinal
  if o < 1 then first
  else if (last.ordinal : Int) < o then last
  else ofOrdinal o.toNat

def padded (width n : Nat) : String :=
  let s := toString n
  zeroPad (width - s.length) ++ s
where
  zeroPad (k : Nat) : String := String.ofList (List.replicate k '0')

/-- Year, month and day with hyphens, zero-padded. -/
def text (d : Date) : String :=
  padded 4 d.year ++ "-" ++ padded 2 d.month ++ "-" ++ padded 2 d.day

end Date

/-! ## Times of day -/

/-- A second of 60 or 61 stands for a leap second. -/
structure TimeOfDay where
  hour : Nat
  minute : Nat
  second : Nat
  deriving DecidableEq, Repr

namespace TimeOfDay

def text (t : TimeOfDay) : String :=
  Date.padded 2 t.hour ++ ":" ++ Date.padded 2 t.minute ++ ":" ++ Date.padded 2 t.second

/-- Seconds since midnight. -/
def seconds (t : TimeOfDay) : Int := t.hour * 3600 + t.minute * 60 + t.second

def ofSeconds (n : Int) : TimeOfDay :=
  let s := (n.fmod 86400).toNat
  ⟨s / 3600, s / 60 % 60, s % 60⟩

private def within (lo hi : Char) : Pattern := .one fun c ↦ lo ≤ c && c ≤ hi

private def hourPattern : Pattern :=
  .alts [.seq (.char '2') (within '0' '3'), .seq (within '0' '1') .digit, .digit]

private def minutePattern : Pattern := .alts [.seq (within '0' '5') .digit, .digit]

private def secondPattern : Pattern :=
  .alts [.seq (.char '6') (within '0' '1'), .seq (within '0' '5') .digit, .digit]

/-- Reads hour, minute and second of one or two digits each, divided by colons, with nothing before
or after them. -/
def read? (cs : List Char) : Option TimeOfDay := do
  let colon (xs : List Char) : Option (List Char) :=
    match xs with
    | ':' :: rest => some rest
    | _ => none
  let number (xs : List Char) : Option Nat := readDigits? xs
  let (h, rest) ← hourPattern.match? cs
  let (m, rest) ← minutePattern.match? (← colon rest)
  let (s, rest) ← secondPattern.match? (← colon rest)
  if rest.isEmpty then return ⟨← number h, ← number m, ← number s⟩ else none

/-- A time on the clock, without a leap second. -/
def onClock (t : TimeOfDay) : Bool := t.second < 60

end TimeOfDay

/-! ## Reading calendar dates

A date is written `YYYY-MM-DD`, `YYYYMMDD`, or as a week `YYYY-Www-D`, `YYYYWwwD`, where the day of
the week may be missing and is then Monday. A moment is a date, one separating character, and a time
with an optional offset; only its date is kept, but the rest has to be well formed. -/

namespace Date

private def asciiDigit? (c : Char) : Option Nat :=
  if '0' ≤ c && c ≤ '9' then some (c.toNat - 48) else none

/-- A number of exactly `n` ASCII digits. -/
private def digits? : Nat → List Char → Option (Nat × List Char)
  | n, cs =>
    let front := cs.take n
    if front.length = n then
      (front.mapM asciiDigit?).map fun ds ↦ (natOfDigits ds, cs.drop n)
    else none

/-- The weekday of a date, Monday being 0. -/
def weekday (d : Date) : Nat := (d.ordinal + 6) % 7

/-- The day `day` (1 to 7) of week `week` of an ISO year. -/
def ofWeek? (year week day : Nat) : Option Date :=
  if year < 1 || 9999 < year then none
  else
    let firstWeekday := weekday ⟨year, 1, 1⟩
    let longYear := firstWeekday = 3 || (firstWeekday = 2 && isLeapYear year)
    if week < 1 || 53 < week || (week = 53 && !longYear) then none
    else if day < 1 || 7 < day then none
    else
      let firstDay : Nat := ordinal ⟨year, 1, 1⟩
      let shift : Int := if firstWeekday > 3 then 7 - firstWeekday else -firstWeekday
      let o : Int := firstDay + shift + (week - 1) * 7 + (day - 1)
      if o < 1 || (last.ordinal : Int) < o then none else some (ofOrdinal o.toNat)

def ofDateText? (cs : List Char) : Option Date := do
  let (year, rest) ← digits? 4 cs
  let (dashed, rest) := match rest with
    | '-' :: r => (true, r)
    | r => (false, r)
  let dash (xs : List Char) : Option (List Char) :=
    if dashed then
      match xs with
      | '-' :: r => some r
      | _ => none
    else some xs
  match rest with
  | 'W' :: rest =>
    let (week, rest) ← digits? 2 rest
    if rest.isEmpty then ofWeek? year week 1
    else
      let (day, rest) ← digits? 1 (← dash rest)
      if rest.isEmpty then ofWeek? year week day else none
  | rest =>
    let (month, rest) ← digits? 2 rest
    let (day, rest) ← digits? 2 (← dash rest)
    let d : Date := ⟨year, month, day⟩
    if rest.isEmpty && d.isValid then some d else none

/-- Where the date part of a moment ends. -/
private def separatorAt (cs : List Char) : Option Nat :=
  let n := cs.length
  let isDigitAt (i : Nat) : Bool := ((cs[i]?).bind asciiDigit?).isSome
  if n = 7 then some 7
  else if cs[4]? = some '-' then
    if cs[5]? = some 'W' then
      if n < 8 then none
      else if cs[8]? = some '-' then
        if n = 9 then none
        else if isDigitAt 10 then some 8
        else some 10
      else some 8
    else some 10
  else if cs[4]? = some 'W' then
    let run := ((cs.drop 7).takeWhile fun c ↦ (asciiDigit? c).isSome).length
    let pos := 7 + run
    if pos < 9 then some pos
    else if pos % 2 = 0 then some 7
    else some 8
  else some 8

/-- Hour, minute, second and fraction; the flag says whether characters are left over. -/
private def clock? (cs : List Char) : Option (Nat × Nat × Nat × Bool) := do
  let (h, rest) ← digits? 2 cs
  match rest with
  | [] => return (h, 0, 0, false)
  | c :: rest' =>
    let colons := c == ':'
    if rest'.isEmpty then return (h, 0, 0, true)
    let fraction (xs : List Char) : Option Bool := do
      let k := min 6 xs.length
      if k = 0 then none
      let (_, rest) ← digits? k xs
      return !(rest.dropWhile fun c ↦ (asciiDigit? c).isSome).isEmpty
    if c == '.' || c == ',' then return (h, 0, 0, ← fraction rest')
    let (m, rest) ← digits? 2 (if colons then rest' else rest)
    match rest with
    | [] => return (h, m, 0, false)
    | c :: rest' =>
      if rest'.isEmpty then return (h, m, 0, true)
      if c == '.' || c == ',' then return (h, m, 0, ← fraction rest')
      if colons && c != ':' then none
      let (s, rest) ← digits? 2 (if colons then rest' else rest)
      match rest with
      | [] => return (h, m, s, false)
      | c :: rest' =>
        if rest'.isEmpty then return (h, m, s, true)
        if c == '.' || c == ',' then return (h, m, s, ← fraction rest')
        if colons then none
        return (h, m, s, ← fraction rest)

/-- Whether a text is a time of day with an optional offset from universal time. -/
private def isMomentTime (cs : List Char) : Bool :=
  let mark (c : Char) : Bool := c == '+' || c == '-' || c == 'Z'
  let body := cs.takeWhile fun c ↦ !mark c
  let onClock (t : Nat × Nat × Nat × Bool) : Bool :=
    t.1 < 24 && t.2.1 < 60 && t.2.2.1 < 60
  match clock? body, cs.drop body.length with
  | some t, [] => !t.2.2.2 && onClock t
  | some t, 'Z' :: rest => rest.isEmpty && onClock t
  | some t, _ :: offset =>
    match clock? offset with
    | some (h, m, s, false) => onClock t && h * 3600 + m * 60 + s < 86400
    | _ => false
  | none, _ => false

def ofMoment? (s : String) : Option Date := do
  let cs := s.toList
  if cs.length < 7 then none
  let sep ← separatorAt cs
  let d ← ofDateText? (cs.take sep)
  match cs.drop sep with
  | [] => some d
  | _ :: time => if isMomentTime time then some d else none

end Date

end QueryEquiv
