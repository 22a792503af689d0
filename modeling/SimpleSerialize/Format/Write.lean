/-
Writing values at the end of a buffer.

`Format.encode` gives the bytes of a value on their own.  Here every value appends its bytes to a
buffer that may hold others already.  A composite appends its children one by one: those of fixed
size to the buffer itself, and the others to a buffer of their own that is appended at the end, each
after its offset.  Offsets count from where the composite starts, not from where its buffer does.
Both ways of writing are the same (`Format.write_eq`).
-/
import SimpleSerialize.Format.Encode

namespace SimpleSerialize

namespace Layout

/-- What appends the bytes of a value to a buffer. -/
abbrev Writer := Bytes → Except EncodeError Bytes

/-- Appends children one by one: to `out` if their size is fixed, and else to `tail` with an offset in
`out`.  The fixed part is `fixed` bytes long, however long `out` is. -/
def stream (shape : String) (fixed : Nat) :
    List (Option Nat × Writer) → (out tail : Bytes) → Except EncodeError (Bytes × Bytes)
  | [], out, tail => .ok (out, tail)
  | (some _, write) :: rest, out, tail => do stream shape fixed rest (← write out) tail
  | (none, write) :: rest, out, tail =>
    let position := fixed + tail.length
    -- The offset is checked before the child is looked at.
    if position ≤ maxOffset then do
      stream shape fixed rest (out ++ LittleEndian.encode offsetSize position) (← write tail)
    else .error (.maxSize shape (.tooLong maxOffset position))

/-- Appends a composite, from the sizes of its children and what appends each of them. -/
def append (shape : String) (children : List (Option Nat × Writer)) : Writer := fun out => do
  let (out, tail) ← stream shape (fixedLength (children.map (·.1))) children out []
  return out ++ tail

end Layout

namespace Format

mutual

/-- Appends a value to a buffer. -/
def write : Format → Value → Layout.Writer
  | basic h a, v => fun out => do return out ++ (← a.encode (← seen h.name v))
  | list h a regime element, v => fun out => do
    let items ← a.items (← seen h.name v)
    regime.check h.name items.length
    let size := element.fixedSize
    Layout.append h.name (items.map fun item => (size, element.write item)) out
  | union h a nullable variants, v => fun out => do
    let v ← seen h.name v
    let selector ← a.selector v
    match Variant.select nullable (writers variants) selector with
    | none => .error (.unionSelector h.name selector)
    | some .empty => return out ++ selectorBytes selector
    | some (.body writeBody) => writeBody (← bodyOf h.name (a.body? v)) (out ++ selectorBytes selector)
  | container h a fields _, v => fun out => do
    let values ← a.fields (← seen h.name v)
    checkArity h.name fields.length values.length
    let bodies := (writers fields).zipWith (fun writeField field => writeField field) values
    Layout.append h.name ((fields.map fixedSize).zip bodies) out

/-- How each of some formats appends a value. -/
def writers : List Format → List (Value → Layout.Writer)
  | [] => []
  | f :: fs => f.write :: writers fs

end

@[simp] theorem writers_eq (fs : List Format) : writers fs = fs.map write := by
  induction fs with
  | nil => rfl
  | cons f fs ih => rw [writers, ih, List.map_cons]

end Format

end SimpleSerialize
