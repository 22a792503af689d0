/-
Reading values.

Every value is read from exactly the bytes of its window: the whole buffer at the top, and below
what `Layout` assigns to each part.  What is read is handed to the accessor, and with it to the
rebuild functions of a subclass, from the parts upwards.
-/
import SimpleSerialize.Format

namespace SimpleSerialize

namespace Format

/-- Checks the number of bytes of a basic value. -/
def checkSize (shape : String) (size actual : Nat) : Except DecodeError Unit :=
  if actual < size then .error (.truncated shape size actual)
  else if size < actual then .error (.trailing shape (actual - size))
  else .ok ()

mutual

/-- The value that takes up a window. -/
def decode : Format → Bytes → Except DecodeError Value
  | basic h a, bytes => do
    checkSize h.name a.base.size bytes.length
    a.decode bytes
  | list h a regime element, bytes => do
    let windows ← Layout.elementWindows h.name regime element.fixedSize bytes
    let items ← windows.mapM fun window => element.decode window
    a.createList items
  | union h a nullable variants, bytes => do
    if bytes.length < Layout.offsetSize then
      .error (.truncated h.name Layout.offsetSize bytes.length)
    else
      let selector := UInt32.ofNat (Layout.readOffset bytes)
      let body := bytes.drop Layout.offsetSize
      match Variant.select nullable (decoders variants) selector with
      | none => .error (.unionSelector h.name selector)
      | some .empty =>
        if body.isEmpty then a.createUnion selector none
        else .error (.trailing h.name body.length)
      | some (.body decodeBody) => a.createUnion selector (some (← decodeBody body))
  | container h a fields _, bytes => do
    let windows ← Layout.windows h.name (fields.map fixedSize) bytes
    let values ← ((decoders fields).zip windows).mapM fun (decodeField, window) =>
      decodeField window
    a.createContainer values

/-- How each of some formats reads a window. -/
def decoders : List Format → List (Bytes → Except DecodeError Value)
  | [] => []
  | f :: fs => f.decode :: decoders fs

end

@[simp] theorem decoders_eq (fs : List Format) : decoders fs = fs.map decode := by
  induction fs with
  | nil => rfl
  | cons f fs ih => rw [decoders, ih, List.map_cons]

end Format

end SimpleSerialize
