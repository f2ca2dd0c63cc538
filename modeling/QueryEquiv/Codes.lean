import QueryEquiv.Text.Hash
import QueryEquiv.Text.Integer
import QueryEquiv.Value

/-!
# Codes of texts

Texts are told to a solver as integers. A text that reads as an integer is its own code, and every
other text is coded by its hash. Codes are kept in the order in which they were first needed, so that
a solver's answer can be turned back into texts: a code that belongs to no text is shown as one of
the known texts with the code after it.
-/

namespace QueryEquiv

structure Codes where
  ofText : List (String × Int) := []
  toText : List (Int × String) := []

namespace Codes

/-- The code that a text has by itself. -/
def intrinsic (s : String) : Int := (Text.readInt? s).getD (Text.signedHash s)

def putText (code : Int) (s : String) : List (Int × String) → List (Int × String)
  | [] => [(code, s)]
  | (c, t) :: rest => if c == code then (c, s) :: rest else (c, t) :: putText code s rest

/-- The code of a text, and the codes that know it. -/
def encode (codes : Codes) (s : String) : Int × Codes :=
  match codes.ofText.lookup s with
  | some code => (code, codes)
  | none =>
    let code := intrinsic s
    (code, { ofText := codes.ofText ++ [(s, code)], toText := putText code s codes.toText })

def decode (codes : Codes) (code : Int) : String :=
  match codes.toText.lookup code with
  | some s => s
  | none =>
    let known := codes.toText.map (·.2)
    match known[(code.fmod known.length).toNat]? with
    | some s => s ++ toString code
    | none => toString code

/-- The text of any value that is asked for as a code; only an integer can pick one of the known texts
that is not its own. -/
def decodeValue (codes : Codes) (v : Value) : Outcome String :=
  match v with
  | .int n => .ok (codes.decode n)
  | .list _ | .object _ => .error .wrongKind
  | _ =>
    match codes.toText.find? fun (c, _) ↦ v.same (.int c) with
    | some (_, s) => .ok s
    | none =>
      match v, codes.toText with
      | _, [] => .ok v.text
      | .bool b, known =>
        let i := (if b then 1 else 0) % known.length
        .ok (((known.map (·.2))[i]?.getD "") ++ v.text)
      | _, _ => .error .wrongKind

end Codes

end QueryEquiv
