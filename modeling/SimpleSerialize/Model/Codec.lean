/-
The codec on instances of models.

An instance is written and hashed as the value that it lowers to, under the shape of its model's
name; bytes are read as a value of that shape and lifted.
-/
import SimpleSerialize.Codec
import SimpleSerialize.Model.Lift

namespace SimpleSerialize.Codec

/-- The shape of a model, which has to be declared. -/
def shapeOf (m : Model) : CodecM SchemaError ShapeId := fun c =>
  (c.catalog.schema.require m.shapeName, c)

/-- Looks a model's shape up and works on it. -/
def withShapeOf {α : Type} (m : Model) (use : ShapeId → CodecM CodecError α) :
    CodecM CodecError α := do
  use (← (shapeOf m).adapt .schema)

def fixedSizeOf (m : Model) : CodecM CodecError (Option Nat) := withShapeOf m fixedSize

def encodeModel (m : Model) (x : m.Instance) : CodecM CodecError Bytes :=
  withShapeOf m fun shape => encode shape (m.lower x)

def decodeModel (m : Model) (bytes : Bytes) : CodecM CodecError m.Instance :=
  withShapeOf m fun shape => do
    let v ← decode shape bytes
    liftM ((m.lift v).mapError CodecError.decode)

def rootOfModel (m : Model) (x : m.Instance) : CodecM CodecError Root :=
  withShapeOf m fun shape => root shape (m.lower x)

def signingRootOfModel (m : Model) (x : m.Instance) : CodecM CodecError Root :=
  withShapeOf m fun shape => signingRoot shape (m.lower x)

end SimpleSerialize.Codec
