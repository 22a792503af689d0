/-
The codec: shapes, values, bytes and roots under one catalog and one hash.

Every operation resolves its shape first, through a cache that later operations share, and then
walks the format.
-/
import SimpleSerialize.Format.Decode
import SimpleSerialize.Format.Resolve
import SimpleSerialize.Format.Root
import SimpleSerialize.Merkle.Sha256

namespace SimpleSerialize

structure Codec where
  catalog : Catalog
  hasher : Hasher := .sha256
  /-- The nodes resolved so far. -/
  cache : FormatCache := []

/-- An operation of the codec, which may extend its cache. -/
abbrev CodecM (ε α : Type) := ExceptT ε (StateM Codec) α

namespace Codec

/-- The format of a shape. -/
def format (shape : ShapeId) : CodecM SchemaError Format := fun c =>
  let (result, cache) := (c.catalog.resolve (c.catalog.schema.descriptor shape)).run c.cache
  (result, { c with cache })

/-- Resolves a shape and does something with its format. -/
def withFormat {α : Type} (shape : ShapeId) (use : Hasher → Format → Except CodecError α) :
    CodecM CodecError α := fun c =>
  let (result, c) := (format shape).run c
  (result.mapError .schema >>= use c.hasher, c)

/-- The size of the encoding of a shape, if it is the same for every value. -/
def fixedSize (shape : ShapeId) : CodecM CodecError (Option Nat) :=
  withFormat shape fun _ f => .ok f.fixedSize

def encode (shape : ShapeId) (v : Value) : CodecM CodecError Bytes :=
  withFormat shape fun _ f => (f.encode v).mapError .encode

/-- The encoding of some elements of a sequence as a sequence of their own. -/
def encodeRange (shape : ShapeId) (v : Value) (start len : Nat) : CodecM CodecError Bytes :=
  withFormat shape fun _ f => (f.encodeRange v start len).mapError .encode

def decode (shape : ShapeId) (bytes : Bytes) : CodecM CodecError Value :=
  withFormat shape fun _ f => (f.decode bytes).mapError .decode

def root (shape : ShapeId) (v : Value) : CodecM CodecError Root :=
  withFormat shape fun hasher f => (f.root hasher v).mapError .encode

/-- The root of the value that some bytes decode to. -/
def rootOfBytes (shape : ShapeId) (bytes : Bytes) : CodecM CodecError Root :=
  withFormat shape fun hasher f => do
    let v ← (f.decode bytes).mapError .decode
    (f.root hasher v).mapError .encode

/-- The root that signatures over a container are made for. -/
def signingRoot (shape : ShapeId) (v : Value) : CodecM CodecError Root :=
  withFormat shape fun hasher f => (f.signingRoot hasher v).mapError .encode

/-- The state of a codec in words: shapes declared and nodes resolved. -/
def debug (c : Codec) : String :=
  "Codec \x7b resolver: TypeResolver \x7b shapes: " ++ toString c.catalog.schema.size
    ++ ", cached: " ++ toString c.cache.length ++ " \x7d, .. \x7d"

end Codec

end SimpleSerialize
