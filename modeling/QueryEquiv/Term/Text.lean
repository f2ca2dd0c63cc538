import QueryEquiv.Term
import QueryEquiv.Text.Case

/-!
# Terms for readers

A compact infix text of a term, for messages and listings. It has no brackets around infix
operators, so it is read by people and never read back.
-/

namespace QueryEquiv

def Comparison.text : Comparison → String
  | gt => ">"
  | ge => ">="
  | lt => "<"
  | le => "<="
  | eq => "=="
  | ne => "!="

def Arith.text : Arith → String
  | add => "+"
  | sub => "-"
  | mul => "*"
  | div => "/"

namespace Term

private def tuple (acc name : String) (ids : List Int) : String :=
  acc ++ name ++ "(" ++ ", ".intercalate (ids.map toString) ++ ")"

mutual

/-- Appends the text of a term to `acc`. -/
def shown (acc : String) : Term → String
  | cell t r c => tuple acc "CELL" [t, r, c]
  | null t r c => tuple acc "NULL" [t, r, c]
  | grouping t r g => tuple acc "GROUPING" [t, r, g]
  | deleted t r => tuple acc "Deleted" [t, r]
  | belongs q g => tuple acc "BELONGSTOGROUP" [q, g]
  | size t => tuple acc "SIZE" [t]
  | choice t b => tuple acc "Choice" [t, b]
  | and ts => showParts (acc ++ "And(") true ts ++ ")"
  | or ts => showParts (acc ++ "Or(") true ts ++ ")"
  | xor a b => shown (shown acc a ++ " ⊕ ") b
  | not a => shown (acc ++ "Not(") a ++ ")"
  | implies a b => shown (shown acc a ++ " => ") b
  | ite c a b => shown (shown (shown (acc ++ "ITE(") c ++ ", ") a ++ ", ") b ++ ")"
  | cmp op a b => shown (shown acc a ++ " " ++ op.text ++ " ") b
  | arith op a b => shown (shown acc a ++ " " ++ op.text ++ " ") b
  | neg a => shown (acc ++ "-") a
  | int v => acc ++ v.text
  | bool v => acc ++ QueryEquiv.Text.upper v.text
  | plain v => acc ++ v.text

def showParts (acc : String) (first : Bool) : List Term → String
  | [] => acc
  | t :: ts => showParts (shown (if first then acc else acc ++ ", ") t) false ts

end

def text (t : Term) : String := shown "" t

end Term

end QueryEquiv
