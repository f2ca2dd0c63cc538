import QueryEquiv.Calendar

/-!
# Log messages

The levels of messages, and how a message is shown on a terminal: in the colour of its level, at the
start of the line, after the time of day.
-/

namespace QueryEquiv

/-- How serious a message is. -/
inductive Level where
  | debug | info | warning | error | critical
  deriving DecidableEq, Repr

namespace Level

def name : Level → String
  | debug => "DEBUG"
  | info => "INFO"
  | warning => "WARNING"
  | error => "ERROR"
  | critical => "CRITICAL"

def all : List Level := [debug, info, warning, error, critical]

def ofName? (s : String) : Option Level := all.find? (·.name == s)

/-- The place of a level in the order of seriousness. -/
def rank : Level → Nat
  | debug => 10
  | info => 20
  | warning => 30
  | error => 40
  | critical => 50

/-- The control sequence that sets the colour of a level. -/
def colour : Level → String
  | debug => "\x1b[0m"
  | info => "\x1b[0;32m"
  | warning => "\x1b[1;33m"
  | error => "\x1b[0;31m"
  | critical => "\x1b[1;31m"

end Level

/-- A message that was logged. -/
structure Message where
  level : Level
  text : String
  deriving DecidableEq, Repr

def Message.line (m : Message) (clock : TimeOfDay) : String :=
  m.level.colour ++ "\r[" ++ clock.text ++ "] [" ++ m.level.name ++ "] " ++ m.text ++ "\x1b[0m"

end QueryEquiv
