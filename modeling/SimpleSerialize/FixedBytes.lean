/-
Byte strings of a fixed width, among them the 32-byte chunks that Merkle trees are made of.

The width is part of the type, so a `FixedBytes n` never has to be checked again.  Main statement:
`FixedBytes.ofBytes?_eq_ok`, by which exactly the byte strings of the right width are accepted.
-/
import SimpleSerialize.Bound
import SimpleSerialize.Bytes.Hex

namespace SimpleSerialize

/-- Byte strings of exactly `n` bytes. -/
structure FixedBytes (n : Nat) where
  bytes : Bytes
  length_eq : bytes.length = n
  deriving DecidableEq

/-- A 32-byte chunk: a leaf or an inner node of a Merkle tree, and the root of a value. -/
abbrev Root := FixedBytes 32

namespace FixedBytes

variable {n : Nat}

@[ext] theorem ext {a b : FixedBytes n} (h : a.bytes = b.bytes) : a = b := by
  cases a
  cases b
  simp_all

/-- The byte string of `n` zero bytes. -/
def zero (n : Nat) : FixedBytes n := ⟨List.replicate n 0, List.length_replicate⟩

/-- The first `n` bytes of a byte string, filled up with zeros on the right. -/
def padded (n : Nat) (bs : Bytes) : FixedBytes n :=
  ⟨(bs.rightpad n 0).take n, by simp [List.rightpad]; omega⟩

/-- A byte string of the right width. -/
def ofBytes? (n : Nat) (bs : Bytes) : Except WidthError (FixedBytes n) :=
  if h : bs.length = n then .ok ⟨bs, h⟩ else .error (.wrongWidth n bs.length)

theorem ofBytes?_eq_ok {bs : Bytes} {x : FixedBytes n} : ofBytes? n bs = .ok x ↔ bs = x.bytes := by
  constructor
  · intro h
    unfold ofBytes? at h
    split at h
    · cases h
      rfl
    · cases h
  · rintro rfl
    simp [ofBytes?, x.length_eq]

def isZero (x : FixedBytes n) : Bool := x.bytes.all (· == 0)

/-- Lexicographic order of the bytes. -/
instance : Ord (FixedBytes n) := ⟨fun x y => compare x.bytes y.bytes⟩

/-- Lower-case hexadecimal digits. -/
def hex [HexText] (x : FixedBytes n) : String := HexText.encode x.bytes

/-- Hexadecimal digits after `0x`: the text of a byte string. -/
def display [HexText] (x : FixedBytes n) : String := "0x" ++ x.hex

/-- The text of a byte string together with its width. -/
def debug [HexText] (x : FixedBytes n) : String := s!"FixedBytes<{n}>(" ++ x.display ++ ")"

/-- Why a text is no byte string of the wanted width. -/
inductive ParseError
  | digits (fault : Hex.Fault)
  | width (error : WidthError)
  deriving DecidableEq

def ParseError.message : ParseError → String
  | .digits fault => fault.message
  | .width error => error.message

/-- Drops every `0x` a text starts with. -/
def dropMarks : Bytes → Bytes
  | 48 :: 120 :: rest => dropMarks rest
  | text => text

/-- Reads hexadecimal digits of either case, after any number of marks `0x`. -/
def parseBytes [HexText] (n : Nat) (text : Bytes) : Except ParseError (FixedBytes n) := do
  let bytes ← (HexText.decode? (dropMarks text)).mapError .digits
  (ofBytes? n bytes).mapError .width

def parse [HexText] (n : Nat) (text : String) : Except ParseError (FixedBytes n) :=
  parseBytes n text.toUTF8.toList

end FixedBytes

end SimpleSerialize
