import QueryEquiv.Text.Case
import QueryEquiv.Text.Pattern
import QueryEquiv.Fault

/-!
# Aliases in quotes

Query texts collected from elsewhere write a column alias in quotes after the expression that it
names. Here the quotes of an alias are removed, so that only quoted values keep theirs, and the text
is brought into upper case on one line.
-/

namespace QueryEquiv.QueryText

open Text Text.Pattern

private def isNameChar (c : Char) : Bool := c.isAlphanum || c == '_'

/-- A name or a closing bracket, and after it a name in quotes. -/
private def quotedAlias (quote : String) : Pattern :=
  seqs [plus (one fun c ↦ isNameChar c || c == ')'), star blank, lit quote, star blank,
    plus (one isNameChar), star blank, lit quote]

/-- A number before a quoted connective is a value and not what the alias names. -/
private def quotedConnective (quote connective : String) : Pattern :=
  seqs [plus digit, star blank, lit quote, star blank, lit connective, star blank, lit quote]

private def keepsQuotes (quote : String) (name : List Char) : Bool :=
  "WHEN".toList.isPrefixOf name || "WHERE".toList.isPrefixOf name
    || ((quotedConnective quote "AND").after? name).isSome
    || ((quotedConnective quote "OR").after? name).isSome

/-- Replaces the first occurrence of `name`. A name that occurs no more replaces the end of the text
instead. -/
private def spliceFirst (name by' cs : List Char) : List Char :=
  match (ofChars name).find? cs with
  | some f => f.before ++ by' ++ f.after
  | none => cs.dropLast ++ by' ++ cs.drop (name.length - 1)

private def unquote (quote : String) (cs : List Char) : List Char :=
  ((quotedAlias quote).findAll cs).foldl (fun cs name ↦
    if keepsQuotes quote name then cs
    else spliceFirst name (replaceText quote.toList [' '] name.length name) cs) cs

/-- A query text without the quotes of its aliases, in upper case and with single blanks. -/
def unquoteAliases (text : String) : Outcome String := do
  let cs := (upper (String.ofList (trim text.toList))).toList.map fun c ↦ if c == '\x60' then ' ' else c
  match cs with
  | [] => .error .outOfRange
  | first :: _ =>
    let last := cs.getLast?
    let cs := if (first == '\'' || first == '"') && last == some first then (cs.drop 1).dropLast else cs
    let cs := unquote "'" (unquote "\"" (unquote "\"\"" cs))
    let cs := replaceText ['"', '"'] ['\''] cs.length cs
    let cs := cs.map fun c ↦ if c == '"' then '\'' else c
    return String.ofList (trim ((plus blank).replaceAll [' '] cs))

end QueryEquiv.QueryText
