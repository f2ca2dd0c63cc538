/-!
# String codes

Strings become integers by the 64-bit FNV-1a hash of their UTF-8 bytes.
-/

namespace QueryEquiv.Text

def fnvOffset : UInt64 := 0xcbf29ce484222325

def fnvPrime : UInt64 := 0x100000001b3

def fnv1a (bytes : ByteArray) : UInt64 :=
  bytes.foldl (fun h b ↦ (h ^^^ b.toUInt64) * fnvPrime) fnvOffset

/-- The hash of a text as an unsigned number. -/
def hash64 (s : String) : UInt64 := fnv1a s.toUTF8

/-- The hash of a text as a signed number in two's complement. -/
def signedHash (s : String) : Int :=
  let n := (hash64 s).toNat
  if n < Nat.pow 2 63 then n else (n : Int) - Nat.pow 2 64

end QueryEquiv.Text
