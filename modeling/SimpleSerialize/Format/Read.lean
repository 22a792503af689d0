/-
Reading values by positions.

`Format.decode` cuts buffers apart with functions that give something for every buffer, however short.
Here bytes are asked for by the positions where they start and stop, as in an array, and asking for
bytes that are not there is a failure of its own kind.  A composite is read in two passes: the first
goes through the fixed part and notes where the children lie, the second takes their bytes and reads
them one by one.  Both ways of reading are the same (`Format.read_eq`), so that no buffer ever brings
about a failure of that kind.
-/
import SimpleSerialize.Format.Decode

namespace SimpleSerialize

/-- Where some bytes of a buffer start and stop. -/
structure Span where
  start : Nat
  stop : Nat
  deriving DecidableEq

/-- The span lies within a buffer of this length. -/
def Span.Within (length : Nat) (s : Span) : Prop := s.start ≤ s.stop ∧ s.stop ≤ length

instance (length : Nat) (s : Span) : Decidable (s.Within length) :=
  inferInstanceAs (Decidable (_ ∧ _))

/-- Why a reader stops. -/
inductive ReadFault
  /-- The bytes are not those of a value. -/
  | refused (error : DecodeError)
  /-- The reader asked for what is not there: a span of something that is only `length` long. -/
  | outside (span : Span) (length : Nat)
  deriving DecidableEq

namespace Layout

/-- The bytes of a span. -/
def slice (bytes : Bytes) (s : Span) : Except ReadFault Bytes :=
  if s.Within bytes.length then .ok ((bytes.drop s.start).take (s.stop - s.start))
  else .error (.outside s bytes.length)

/-- The offset that stands at a position. -/
def offsetAt (bytes : Bytes) (position : Nat) : Except ReadFault Nat := do
  return LittleEndian.decode (← slice bytes ⟨position, position + offsetSize⟩)

/-- Where a child was found to lie. -/
inductive Place
  /-- In the fixed part, with these bytes. -/
  | inline (bytes : Bytes)
  /-- In the variable part, at one of the offsets that were read. -/
  | offset (index : Nat)

/-- The first pass, from `position` on, where some offsets were read before. -/
def scan (shape : String) (fixedLength : Nat) (bytes : Bytes) :
    (index position : Nat) → (offsets : List Nat) → List (Option Nat) →
      Except ReadFault (List Place × List Nat)
  | _, _, offsets, [] => .ok ([], offsets)
  | index, position, offsets, some width :: sizes => do
    let window ← slice bytes ⟨position, position + width⟩
    let (places, offsets) ←
      scan shape fixedLength bytes (index + 1) (position + width) offsets sizes
    return (.inline window :: places, offsets)
  | index, position, offsets, none :: sizes => do
    let offset ← offsetAt bytes position
    (checkOffset shape fixedLength bytes.length index offsets.getLast? offset).mapError .refused
    let (places, all) ←
      scan shape fixedLength bytes (index + 1) (position + offsetSize) (offsets ++ [offset]) sizes
    return (.offset offsets.length :: places, all)

/-- Where the children of a composite lie, with all offsets that were read. -/
def survey (shape : String) (sizes : List (Option Nat)) (bytes : Bytes) :
    Except ReadFault (List Place × List Nat) := do
  let length := fixedLength sizes
  if bytes.length < length then .error (.refused (.truncated shape length bytes.length))
  else
    let (places, offsets) ← scan shape length bytes 0 0 [] sizes
    if offsets.isEmpty ∧ length < bytes.length then
      .error (.refused (.trailing shape (bytes.length - length)))
    else return (places, offsets)

/-- The bytes of a child.  In the variable part it stops where the next one starts. -/
def windowAt (bytes : Bytes) (offsets : List Nat) : Place → Except ReadFault Bytes
  | .inline window => .ok window
  | .offset index =>
    match offsets[index]? with
    | some start => slice bytes ⟨start, offsets[index + 1]?.getD bytes.length⟩
    | none => .error (.outside ⟨index, index + 1⟩ offsets.length)

/-- Both passes, where each child has a reader of its own. -/
def readChildren {α : Type} (shape : String) (sizes : List (Option Nat))
    (readers : List (Bytes → Except ReadFault α)) (bytes : Bytes) : Except ReadFault (List α) := do
  let (places, offsets) ← survey shape sizes bytes
  (readers.zip places).mapM fun (read, place) => do read (← windowAt bytes offsets place)

/-- How many elements of no fixed size a buffer holds, by its first offset. -/
def countAt (shape : String) (regime : Regime) (bytes : Bytes) : Except ReadFault Nat :=
  let total := bytes.length
  match regime, bytes with
  | .list _, [] => .ok 0
  | _, _ =>
    if total < offsetSize then
      match regime with
      | .vector length => .error (.refused (.truncated shape (length * 4).toNat total))
      | .list _ => .error (.refused (.truncated shape offsetSize total))
    else do
      let first ← offsetAt bytes 0
      let fault (reason : OffsetFault) : Except ReadFault Nat :=
        .error (.refused (.malformedOffset shape 0 first reason))
      if first % offsetSize ≠ 0 ∨ first = 0 then fault .misaligned
      else if total < first then fault (.outOfRange total)
      else
        let count := first / offsetSize
        match regime with
        | .vector length =>
          if count = length.toNat then .ok count else fault (.first (length * 4).toNat)
        | .list _ => .ok count

/-- Where elements of one size lie. -/
def elementSpans (width count : Nat) : List Span :=
  (List.range count).map fun i => ⟨i * width, (i + 1) * width⟩

/-- The elements of a sequence, which are all read alike. -/
def readElements {α : Type} (shape : String) (regime : Regime) (size : Option Nat)
    (read : Bytes → Except ReadFault α) (bytes : Bytes) : Except ReadFault (List α) :=
  match size with
  | some width => do
    let count ← (fixedCount shape regime width bytes).mapError .refused
    (regime.checkLimit shape count).mapError .refused
    (elementSpans width count).mapM fun span => do read (← slice bytes span)
  | none => do
    let count ← countAt shape regime bytes
    (regime.checkLimit shape count).mapError .refused
    readChildren shape (List.replicate count none) (List.replicate count read) bytes

end Layout

namespace Format

mutual

/-- The value that takes up a window. -/
def read : Format → Bytes → Except ReadFault Value
  | basic h a, bytes => do
    (checkSize h.name a.base.size bytes.length).mapError .refused
    (a.decode bytes).mapError .refused
  | list h a regime element, bytes => do
    let items ← Layout.readElements h.name regime element.fixedSize
      (fun window => element.read window) bytes
    (a.createList items).mapError .refused
  | union h a nullable variants, bytes => do
    if bytes.length < Layout.offsetSize then
      .error (.refused (.truncated h.name Layout.offsetSize bytes.length))
    else
      let selector := UInt32.ofNat (← Layout.offsetAt bytes 0)
      let body ← Layout.slice bytes ⟨Layout.offsetSize, bytes.length⟩
      match Variant.select nullable (readers variants) selector with
      | none => .error (.refused (.unionSelector h.name selector))
      | some .empty =>
        if body.isEmpty then (a.createUnion selector none).mapError .refused
        else .error (.refused (.trailing h.name body.length))
      | some (.body readBody) => do
        let v ← readBody body
        (a.createUnion selector (some v)).mapError .refused
  | container h a fields _, bytes => do
    let values ← Layout.readChildren h.name (fields.map fixedSize) (readers fields) bytes
    (a.createContainer values).mapError .refused

/-- How each of some formats reads a window. -/
def readers : List Format → List (Bytes → Except ReadFault Value)
  | [] => []
  | f :: fs => f.read :: readers fs

end

@[simp] theorem readers_eq (fs : List Format) : readers fs = fs.map read := by
  induction fs with
  | nil => rfl
  | cons f fs ih => rw [readers, ih, List.map_cons]

end Format

end SimpleSerialize
