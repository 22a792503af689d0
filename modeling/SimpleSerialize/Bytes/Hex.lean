/-
Hexadecimal text of byte strings.

Such texts are written and read by a library, of which only what `HexText` lists is used.  The
library that programs use is given first: `Hex.encode` writes two lower-case digits per byte.
`Hex.decode?` reads the bytes of a text back and accepts digits of either case; it refuses an odd
number of characters before it looks at any of them, and otherwise names the first character that is
no digit.
-/
import SimpleSerialize.Bytes.LittleEndian

namespace SimpleSerialize

namespace Hex

/-- Why a text is no hexadecimal byte string. -/
inductive Fault
  | oddLength
  /-- A byte of the text that is no digit, and where it stands. -/
  | notDigit (byte : UInt8) (position : Nat)
  deriving DecidableEq

/-- The lower-case digit of a number below sixteen, as a byte of text. -/
def digit (n : Nat) : UInt8 :=
  if n < 10 then UInt8.ofNat (48 + n) else UInt8.ofNat (87 + n)

/-- The number a digit of either case stands for. -/
def digit? (b : UInt8) : Option Nat :=
  if 48 ≤ b ∧ b ≤ 57 then some (b.toNat - 48)
  else if 97 ≤ b ∧ b ≤ 102 then some (b.toNat - 87)
  else if 65 ≤ b ∧ b ≤ 70 then some (b.toNat - 55)
  else none

/-- Two lower-case digits for every byte, as bytes of text. -/
def digits (bs : Bytes) : Bytes :=
  bs.flatMap fun b => [digit (b.toNat / 16), digit (b.toNat % 16)]

/-- The hexadecimal text of a byte string. -/
def encode (bs : Bytes) : String :=
  String.ofList ((digits bs).map fun b => Char.ofNat b.toNat)

/-- Reads digits in pairs, counting positions from `position`. -/
def decodePairs (position : Nat) : Bytes → Except Fault Bytes
  | high :: low :: rest =>
    match digit? high, digit? low with
    | some h, some l => do
      let bytes ← decodePairs (position + 2) rest
      pure (UInt8.ofNat (16 * h + l) :: bytes)
    | none, _ => throw (.notDigit high position)
    | some _, none => throw (.notDigit low (position + 1))
  | _ => pure []

/-- The bytes spelled by a text, itself given as bytes. -/
def decode? (text : Bytes) : Except Fault Bytes :=
  if text.length % 2 = 1 then throw .oddLength else decodePairs 0 text

/-- A byte as a quoted character: the character of that code point, with quotes, backslashes and
characters that have no glyph written as escapes. -/
def quoted (b : UInt8) : String :=
  let inner :=
    if b = 0 then "\\0"
    else if b = 9 then "\\t"
    else if b = 10 then "\\n"
    else if b = 13 then "\\r"
    else if b = 39 then "\\'"
    else if b = 92 then "\\\\"
    else if b < 32 ∨ (127 ≤ b ∧ b ≤ 160) ∨ b = 173 then
      "\\u\x7b" ++ String.ofList (Nat.toDigits 16 b.toNat) ++ "\x7d"
    else String.singleton (Char.ofNat b.toNat)
  "'" ++ inner ++ "'"

/-- The text that reports a fault. -/
def Fault.message : Fault → String
  | .oddLength => "Odd number of digits"
  | .notDigit byte position =>
    "Invalid character " ++ quoted byte ++ " at position " ++ toString position

end Hex

/-- What is used of a library for hexadecimal text. -/
class HexText where
  /-- The text of a byte string. -/
  encode : Bytes → String
  /-- The bytes spelled by a text, itself given as bytes. -/
  decode? : Bytes → Except Hex.Fault Bytes

instance HexText.standard : HexText := ⟨Hex.encode, Hex.decode?⟩

end SimpleSerialize
