/-
Models: typed views of shapes.

A model is an expression built from flags, integers, byte strings, sequences, options, records,
choices and newtypes.  It has a shape, which `shapeName` names and `declare` declares, and it has
instances, the typed values of `Instance`: bounded sequences carry their bound, a record has one
instance for each field, a choice one of its variants.
-/
import SimpleSerialize.FixedBytes
import SimpleSerialize.Schema.Builder
import SimpleSerialize.Sequence

namespace SimpleSerialize

/-- Machine integers, by their number of bytes. -/
inductive WordSize
  | one
  | two
  | four
  | eight
  | sixteen
  deriving DecidableEq

def WordSize.bytes : WordSize → Nat
  | one => 1
  | two => 2
  | four => 4
  | eight => 8
  | sixteen => 16

mutual

/-- Expressions for typed views of shapes. -/
inductive Model
  | bool
  | uint (size : WordSize)
  /-- Integers of 32 bytes on the wire, of any size before. -/
  | uint256
  | bytes (length : UInt32)
  /-- Lists of any length. -/
  | list (element : Model)
  | option (body : Model)
  | vector (element : Model) (length : UInt64)
  | boundedList (element : Model) (limit : UInt64)
  /-- Vectors whose length is a size variable. -/
  | sizedVector (element : Model) (length : String)
  /-- Lists whose greatest length is a size variable. -/
  | sizedList (element : Model) (limit : String)
  /-- A subclass of the shape of `inner`. -/
  | newtype (name : String) (inner : Model) (check : Rebuild)
  | record (name : String) (fields : ModelFields)
  /-- A union of its own name.  When `nullable`, selector `0` is a case without a body. -/
  | choice (name : String) (nullable : Bool) (variants : ModelVariants)

/-- The fields of a record. -/
inductive ModelFields
  | nil
  | cons (name : String) (model : Model) (hint : Option String) (rest : ModelFields)

/-- The variants of a choice that have a body. -/
inductive ModelVariants
  | nil
  | cons (model : Model) (rest : ModelVariants)

end

namespace ModelFields

/-- Fields without hints. -/
def ofList : List (String × Model) → ModelFields
  | [] => .nil
  | (name, model) :: rest => .cons name model none (ofList rest)

def length : ModelFields → Nat
  | .nil => 0
  | .cons _ _ _ rest => rest.length + 1

end ModelFields

def ModelVariants.ofList : List Model → ModelVariants
  | [] => .nil
  | model :: rest => .cons model (ofList rest)

namespace Model

/-- The name of the shape of a model. -/
def shapeName : Model → String
  | .bool => BasicKind.shapeName .bool
  | .uint size => BasicKind.shapeName (.uint (UInt8.ofNat size.bytes))
  | .uint256 => BasicKind.shapeName (.uint 32)
  | .bytes length => BasicKind.shapeName (.bytes length)
  | .list element => ShapeName.list element.shapeName none
  | .option body => ShapeName.union true [body.shapeName]
  | .vector element length => ShapeName.vector element.shapeName (.literal length)
  | .boundedList element limit => ShapeName.list element.shapeName (some (.literal limit))
  | .sizedVector element length => ShapeName.vector element.shapeName (.named length)
  | .sizedList element limit => ShapeName.list element.shapeName (some (.named limit))
  | .newtype name _ _ => name
  | .record name _ => name
  | .choice name _ _ => name

mutual

/-- Declares the shape of a model after the shapes that it depends on. -/
def declare : Model → Declare ShapeId
  | .bool => Declare.bool
  | .uint size => Declare.uint (UInt8.ofNat size.bytes)
  | .uint256 => Declare.uint 32
  | .bytes length => Declare.bytes length
  | .list element => do Declare.list (← element.declare) none
  | .option body => do Declare.union none [← body.declare] true
  | .vector element length => do Declare.vector (← element.declare) (.literal length)
  | .boundedList element limit => do Declare.list (← element.declare) (some (.literal limit))
  | .sizedVector element length => do Declare.vector (← element.declare) (.named length)
  | .sizedList element limit => do Declare.list (← element.declare) (some (.named limit))
  | .newtype name inner check => do Declare.subclass name (← inner.declare) check
  | .record name fields => do Declare.container name (← declareFields fields)
  | .choice name nullable variants => do
    Declare.union (some name) (← declareVariants variants) nullable

def declareFields : ModelFields → Declare (List Field)
  | .nil => return []
  | .cons name model hint rest => do
    let shape ← model.declare
    return ⟨name, shape, hint⟩ :: (← declareFields rest)

def declareVariants : ModelVariants → Declare (List ShapeId)
  | .nil => return []
  | .cons model rest => do
    let shape ← model.declare
    return shape :: (← declareVariants rest)

end

mutual

/-- The typed values of a model. -/
def Instance : Model → Type
  | .bool => Bool
  | .uint size => Fin (LittleEndian.capacity size.bytes)
  | .uint256 => Nat
  | .bytes length => FixedBytes length.toNat
  | .list element => List element.Instance
  | .option body => Option body.Instance
  | .vector element length => Exactly element.Instance length.toNat
  | .boundedList element limit => UpTo element.Instance limit.toNat
  | .sizedVector element _ => List element.Instance
  | .sizedList element _ => List element.Instance
  | .newtype _ inner _ => inner.Instance
  | .record _ fields => RecordInstance fields
  | .choice _ true variants => Option (ChoiceInstance variants)
  | .choice _ false variants => ChoiceInstance variants

/-- One instance for each field. -/
def RecordInstance : ModelFields → Type
  | .nil => Unit
  | .cons _ model _ rest => model.Instance × RecordInstance rest

/-- An instance of one of the variants. -/
def ChoiceInstance : ModelVariants → Type
  | .nil => Empty
  | .cons model rest => model.Instance ⊕ ChoiceInstance rest

end

/-- The text of a sequence whose length is bounded by a size variable. -/
def sizedText (kind variableName : String) (items : List String) : String :=
  kind ++ "<" ++ variableName ++ ">[" ++ String.intercalate ", " items ++ "]"

end Model

end SimpleSerialize
