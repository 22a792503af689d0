/-
The layout of composites.

The children of a composite are laid out as a fixed part followed by a variable part.  A child whose
size is fixed stands in the fixed part; any other child has an offset there, counted from the first
byte of the composite, and stands in the variable part.  `compose` writes the layout from the
encodings of the children, `windows` finds the bytes of each child in a buffer, and
`elementWindows` does the same for a sequence, whose number of elements the buffer decides.

Children come with their fixed sizes, `none` for a child that has none.
-/
import SimpleSerialize.Bytes.Chunks
import SimpleSerialize.Regime

namespace SimpleSerialize.Layout

/-- The bytes of an offset. -/
def offsetSize : Nat := 4

/-- The greatest offset. -/
def maxOffset : Nat := 0xffffffff

/-- The bytes that a child takes in the fixed part. -/
def slotSize (size : Option Nat) : Nat := size.getD offsetSize

/-- The length of the fixed part. -/
def fixedLength : List (Option Nat) → Nat
  | [] => 0
  | size :: sizes => slotSize size + fixedLength sizes

/-- The offset that a buffer starts with. -/
def readOffset (bytes : Bytes) : Nat := LittleEndian.decode (bytes.take offsetSize)

/-- The fixed part and the variable part of some children, of which the first that is not fixed in
size is to stand at `position`. -/
def place (shape : String) :
    (position : Nat) → List (Option Nat × Except EncodeError Bytes) →
      Except EncodeError (Bytes × Bytes)
  | _, [] => .ok ([], [])
  | position, (some _, body) :: rest => do
    let bytes ← body
    let (fixed, tail) ← place shape position rest
    return (bytes ++ fixed, tail)
  | position, (none, body) :: rest =>
    -- The offset is checked before the child is looked at.
    if position ≤ maxOffset then do
      let bytes ← body
      let (fixed, tail) ← place shape (position + bytes.length) rest
      return (LittleEndian.encode offsetSize position ++ fixed, bytes ++ tail)
    else .error (.maxSize shape (.tooLong maxOffset position))

/-- The bytes of a composite, from the sizes and the encodings of its children. -/
def compose (shape : String) (children : List (Option Nat × Except EncodeError Bytes)) :
    Except EncodeError Bytes := do
  let (fixed, tail) ← place shape (fixedLength (children.map (·.1))) children
  return fixed ++ tail

/-- What the fixed part says of a child. -/
inductive Slot
  /-- The bytes of the child. -/
  | inline (bytes : Bytes)
  /-- Where the bytes of the child start. -/
  | offset (position : Nat)
  deriving DecidableEq

/-- Checks an offset against the end of the fixed part if it is the first, and else against the one
before it and the length of the buffer. -/
def checkOffset (shape : String) (fixedLength total index : Nat) (previous : Option Nat)
    (offset : Nat) : Except DecodeError Unit :=
  let fault (reason : OffsetFault) : Except DecodeError Unit :=
    .error (.malformedOffset shape index offset reason)
  match previous with
  | none => if offset = fixedLength then .ok () else fault (.first fixedLength)
  | some previous =>
    if offset < previous then fault (.decreasing previous)
    else if total < offset then fault (.outOfRange total)
    else .ok ()

/-- Reads the fixed part from `bytes`, the rest of it from child `index` on. -/
def slots (shape : String) (fixedLength total : Nat) :
    (index : Nat) → (previous : Option Nat) → List (Option Nat) → Bytes →
      Except DecodeError (List Slot)
  | _, _, [], _ => .ok []
  | index, previous, some width :: sizes, bytes => do
    let rest ← slots shape fixedLength total (index + 1) previous sizes (bytes.drop width)
    return .inline (bytes.take width) :: rest
  | index, previous, none :: sizes, bytes => do
    let offset := readOffset bytes
    checkOffset shape fixedLength total index previous offset
    let rest ← slots shape fixedLength total (index + 1) (some offset) sizes (bytes.drop offsetSize)
    return .offset offset :: rest

/-- Where the next child of the variable part starts: the end of the buffer, if there is none. -/
def nextOffset (total : Nat) : List Slot → Nat
  | [] => total
  | .inline _ :: rest => nextOffset total rest
  | .offset position :: _ => position

/-- The bytes of each child, where `tail` is the variable part from the next of its children on.  A
child of the variable part ends where the next one starts. -/
def cut (total : Nat) (tail : Bytes) : List Slot → List Bytes
  | [] => []
  | .inline window :: rest => window :: cut total tail rest
  | .offset position :: rest =>
    let length := nextOffset total rest - position
    tail.take length :: cut total (tail.drop length) rest

@[simp] theorem length_cut (total : Nat) (tail : Bytes) (slots : List Slot) :
    (cut total tail slots).length = slots.length := by
  induction slots generalizing tail with
  | nil => rfl
  | cons slot rest ih => cases slot <;> simp [cut, ih]

/-- The bytes of each child of a composite. -/
def windows (shape : String) (sizes : List (Option Nat)) (bytes : Bytes) :
    Except DecodeError (List Bytes) := do
  let length := fixedLength sizes
  if bytes.length < length then .error (.truncated shape length bytes.length)
  else
    let slots ← slots shape length bytes.length 0 none sizes bytes
    if sizes.all Option.isSome ∧ length < bytes.length then
      .error (.trailing shape (bytes.length - length))
    else return cut bytes.length (bytes.drop length) slots

/-- How many elements of fixed size a buffer holds.  Elements without bytes cannot be counted, so
that a list of them is empty. -/
def fixedCount (shape : String) (regime : Regime) (width : Nat) (bytes : Bytes) :
    Except DecodeError Nat :=
  match regime with
  | .vector length =>
    let needed := length.toNat * width
    if bytes.length < needed then .error (.truncated shape needed bytes.length)
    else if needed < bytes.length then .error (.trailing shape (bytes.length - needed))
    else .ok length.toNat
  | .list _ =>
    if width = 0 then
      if bytes.isEmpty then .ok 0 else .error (.trailing shape bytes.length)
    else if bytes.length % width = 0 then .ok (bytes.length / width)
    else .error (.trailing shape (bytes.length % width))

/-- How many elements of no fixed size a buffer holds: as many as offsets fit before the place where
the first offset points.  The number of bytes that the offsets of a vector need is a 64-bit word. -/
def offsetCount (shape : String) (regime : Regime) (bytes : Bytes) : Except DecodeError Nat :=
  let total := bytes.length
  match regime, bytes with
  | .list _, [] => .ok 0
  | _, _ =>
    -- There is no first offset to count by.
    if total < offsetSize then
      match regime with
      | .vector length => .error (.truncated shape (length * 4).toNat total)
      | .list _ => .error (.truncated shape offsetSize total)
    else
      let first := readOffset bytes
      let fault (reason : OffsetFault) : Except DecodeError Nat :=
        .error (.malformedOffset shape 0 first reason)
      if first % offsetSize ≠ 0 ∨ first = 0 then fault .misaligned
      else if total < first then fault (.outOfRange total)
      else
        let count := first / offsetSize
        match regime with
        | .vector length =>
          if count = length.toNat then .ok count else fault (.first (length * 4).toNat)
        | .list _ => .ok count

/-- The bytes of each element of a sequence. -/
def elementWindows (shape : String) (regime : Regime) (size : Option Nat) (bytes : Bytes) :
    Except DecodeError (List Bytes) :=
  match size with
  | some width => do
    let count ← fixedCount shape regime width bytes
    regime.checkLimit shape count
    return chunks width count bytes
  | none => do
    let count ← offsetCount shape regime bytes
    regime.checkLimit shape count
    windows shape (List.replicate count none) bytes

end SimpleSerialize.Layout
