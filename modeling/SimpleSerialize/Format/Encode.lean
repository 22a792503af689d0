/-
Writing values.

Basic values are written by their accessor and composites are laid out by `Layout.compose`.  A union
is its selector followed by the body of the selected variant.  An overlay is looked through; a value
that was pruned cannot be written.
-/
import SimpleSerialize.Format

namespace SimpleSerialize

namespace Format

/-- The value under any overlays, which has to be there. -/
def seen (shape : String) (v : Value) : Except EncodeError Value :=
  match v.concrete with
  | some w => .ok w
  | none => .error (.pruned shape)

/-- Checks that a container has one value for each field of its shape. -/
def checkArity (shape : String) (declared found : Nat) : Except EncodeError Unit :=
  if found = declared then .ok ()
  else .error (.valueMismatch shape "one value per declared field" "container of another arity")

/-- The body that a union has to have. -/
def bodyOf (shape : String) (body : Option Value) : Except EncodeError Value :=
  match body with
  | some v => .ok v
  | none => .error (.valueMismatch shape "union body" "empty union")

/-- The bytes of the selector of a union. -/
def selectorBytes (selector : UInt32) : Bytes :=
  LittleEndian.encode Layout.offsetSize selector.toNat

mutual

/-- The bytes of a value. -/
def encode : Format → Value → Except EncodeError Bytes
  | basic h a, v => do a.encode (← seen h.name v)
  | list h a regime element, v => do
    let items ← a.items (← seen h.name v)
    regime.check h.name items.length
    let size := element.fixedSize
    Layout.compose h.name (items.map fun item => (size, element.encode item))
  | union h a nullable variants, v => do
    let v ← seen h.name v
    let selector ← a.selector v
    match Variant.select nullable (encoders variants) selector with
    | none => .error (.unionSelector h.name selector)
    | some .empty => return selectorBytes selector
    | some (.body encodeBody) =>
      return selectorBytes selector ++ (← encodeBody (← bodyOf h.name (a.body? v)))
  | container h a fields _, v => do
    let values ← a.fields (← seen h.name v)
    checkArity h.name fields.length values.length
    let bodies := (encoders fields).zipWith (fun encodeField field => encodeField field) values
    Layout.compose h.name ((fields.map fixedSize).zip bodies)

/-- How each of some formats writes a value. -/
def encoders : List Format → List (Value → Except EncodeError Bytes)
  | [] => []
  | f :: fs => f.encode :: encoders fs

end

@[simp] theorem encoders_eq (fs : List Format) : encoders fs = fs.map encode := by
  induction fs with
  | nil => rfl
  | cons f fs ih => rw [encoders, ih, List.map_cons]

/-- The bytes of the elements `start, …, start + len - 1` of a sequence, laid out as a sequence of
their own, whatever number of elements the shape asks for. -/
def encodeRange (f : Format) (v : Value) (start len : Nat) : Except EncodeError Bytes :=
  match f with
  | list h a _ element => do
    let items ← a.items (← seen h.name v)
    if start + len ≤ items.length then
      Layout.compose h.name
        (((items.drop start).take len).map fun item => (element.fixedSize, element.encode item))
    else .error (.rangeOutOfBounds h.name start len items.length)
  | f => .error (.valueMismatch f.name "sequence" "non-sequence shape")

end Format

end SimpleSerialize
