import QueryEquiv.Text.Class

/-!
# Quoted text

Text between quotes, with escapes for what cannot stand there as itself. A single quote is used
unless the text has a single quote and no double quote, so a quote inside the text needs an escape
only when both kinds occur.
-/

namespace QueryEquiv.Text

/-- The lower-case hexadecimal digits of `n`, padded with zeros to `width`. -/
def hex (width n : Nat) : String :=
  let ds := Nat.toDigits 16 n
  String.ofList (List.replicate (width - ds.length) '0' ++ ds)

/-- How one character is written between quotes of the kind `quote`. -/
def escapeChar (quote c : Char) : String :=
  let n := c.toNat
  if c == quote || c == '\\' then String.ofList ['\\', c]
  else if c == '\n' then "\\n"
  else if c == '\r' then "\\r"
  else if c == '\t' then "\\t"
  else if isPrintable c then c.toString
  else if n < 256 then "\\x" ++ hex 2 n
  else if n < 65536 then "\\u" ++ hex 4 n
  else "\\U" ++ hex 8 n

def quoteFor (s : String) : Char :=
  if s.toList.contains '\'' && !s.toList.contains '"' then '"' else '\''

def quoted (s : String) : String :=
  let q := quoteFor s
  s.toList.foldl (fun acc c ↦ acc ++ escapeChar q c) q.toString ++ q.toString

end QueryEquiv.Text
