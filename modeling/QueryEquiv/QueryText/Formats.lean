import QueryEquiv.Value.Access

/-!
# Shapes of text in queries

The pieces of query text that are recognised before the text is read, and the texts that stand for
dates and times.
-/

namespace QueryEquiv.QueryText

open Text Text.Pattern

/-! ## Dates and times in quotes -/

private def dateDigit : Pattern := one fun c ↦ '0' ≤ c && c ≤ '9'

private def dateMark : Pattern := one fun c ↦ c == '-' || c == '|' || c == '_' || c == ':' || c == '/'

private def shortNumber : Pattern := between 1 dateDigit 1

/-- Three numbers, the first of two to four digits, divided by `-`, `|`, `_`, `:` or `/`; then, after
blanks, an optional time. -/
def datePattern : Pattern :=
  seqs [between 2 dateDigit 2, dateMark, shortNumber, dateMark, shortNumber,
    opt (seqs [plus blank, shortNumber, char ':', shortNumber, char ':', shortNumber])]

def isDate (s : String) : Bool := datePattern.matchesAll (trim s.toList)

/-- The part of a text before its first full stop. -/
def beforeStop (s : String) : List Char := s.toList.takeWhile (· != '.')

/-- A time of day on the clock; what follows a full stop is not looked at. -/
def isTime (s : String) : Bool := (TimeOfDay.read? (beforeStop s)).any TimeOfDay.onClock

/-! ## Pieces of queries -/

/-- The items of one row of an inline table, after its opening bracket. -/
private def rowItems : Pattern :=
  seqs [plus visible, star blank, star visible,
    star (seqs [star blank, char ',', star blank, plus visible, star blank, star visible]), char ')']

/-- An inline table: `(VALUES (…), (…))`. -/
def inlineTable : Pattern :=
  seqs [lit "(VALUES", star blank, char '(', rowItems,
    star (seqs [star blank, char ',', star blank, char '(', rowItems]), char ')']

def inlineRow : Pattern := seqs [char '(', lazyPlus inLine, char ')']

/-- A timestamp type with its precision. -/
def preciseTimestamp : Pattern := seqs [lit "TIMESTAMP(", plus digit, char ')']

/-- `LIMIT` with two numbers. -/
def doubleLimit : Pattern :=
  seqs [lit "LIMIT", plus blank, plus digit, char ',', star blank, plus digit]

def bracketedTable : Pattern :=
  seqs [lit "FROM (", plus (one fun c ↦ c.isAlphanum), char ')']

def plainName : Pattern := plus (one fun c ↦ c.isAlpha || c == '_' || c == '.' || c == '$')

def equality : Pattern := alts [lit "<>", lit "=", lit "!="]

/-- A comparison of a name with NULL, on either side. -/
def nullComparison : Pattern :=
  alt (seqs [plainName, plus blank, equality, plus blank, lit "NULL"])
    (seqs [lit "NULL", plus blank, equality, plus blank, plainName])

end QueryEquiv.QueryText
