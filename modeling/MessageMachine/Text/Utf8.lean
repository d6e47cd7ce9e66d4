/-!
# Reading bytes as text

Bytes are read as UTF-8.  Where they are not, each longest run that could still have begun a
character becomes one replacement character, and so does each byte that can begin none.
-/

namespace MessageMachine.Utf8

/-- Stands for bytes that are no character. -/
def replacement : Char := Char.ofNat 0xfffd

/-- The continuation bytes that a first byte calls for: how many, and the bounds of the next one.
The bounds exclude overlong forms, surrogates and code points above the last. -/
def continuation? (first : UInt8) : Option (Nat × UInt8 × UInt8) :=
  if first < 0xc2 then none
  else if first < 0xe0 then some (1, 0x80, 0xbf)
  else if first = 0xe0 then some (2, 0xa0, 0xbf)
  else if first = 0xed then some (2, 0x80, 0x9f)
  else if first < 0xf0 then some (2, 0x80, 0xbf)
  else if first = 0xf0 then some (3, 0x90, 0xbf)
  else if first < 0xf4 then some (3, 0x80, 0xbf)
  else if first = 0xf4 then some (3, 0x80, 0x8f)
  else none

/-- The payload bits of a first byte that `count` continuation bytes follow. -/
def payload (first : UInt8) (count : Nat) : Nat := first.toNat % (1 <<< (6 - count))

/-- Reads `count` continuation bytes, the next of them within the given bounds.  Answers the
character, or the replacement if a byte is missing, and the bytes after what was read. -/
def readRest (code : Nat) (low high : UInt8) : (count : Nat) → List UInt8 → Char × List UInt8
  | 0, rest => (Char.ofNat code, rest)
  | _ + 1, [] => (replacement, [])
  | count + 1, b :: rest =>
    if low ≤ b ∧ b ≤ high then
      readRest (code * 64 + b.toNat % 64) 0x80 0xbf count rest
    else (replacement, b :: rest)

/-- Reads at most `fuel` characters. -/
def readChars : (fuel : Nat) → List UInt8 → List Char
  | 0, _ => []
  | _ + 1, [] => []
  | fuel + 1, b :: rest =>
    if b < 0x80 then Char.ofNat b.toNat :: readChars fuel rest
    else
      match continuation? b with
      | none => replacement :: readChars fuel rest
      | some (count, low, high) =>
        let (c, rest) := readRest (payload b count) low high count rest
        c :: readChars fuel rest

/-- The text of bytes.  Every character takes at least one byte. -/
def decodeLossy (bytes : Array UInt8) : String :=
  String.ofList (readChars bytes.size bytes.toList)

/-- The bytes of a text. -/
def encode (s : String) : Array UInt8 := s.toUTF8.data

end MessageMachine.Utf8
