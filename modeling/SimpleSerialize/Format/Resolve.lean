/-
From shapes to formats.

A `Catalog` is what resolution depends on: the table of shapes, the registry of accessors and the
values of size variables.  The `Outline` of a use of a shape is what can be said of its node before
its parts are known; `Catalog.finish` completes it once they are.  `Catalog.format` resolves a use
of a shape on its own.  `Catalog.resolve` does the same through a cache, which keeps every node that
was resolved, by its shape and its hint.
-/
import SimpleSerialize.Accessor.Registry
import SimpleSerialize.Format
import SimpleSerialize.SizeVars

namespace SimpleSerialize

/-- What the format of a shape depends on. -/
structure Catalog (B : Type := BasicAccessor) (L : Type := ListAccessor)
    (U : Type := UnionAccessor) (C : Type := ContainerAccessor) where
  schema : Schema
  registry : Registry B L U C := by exact Registry.standard
  /-- The values of size variables. -/
  sizes : String → Option UInt64 := fun _ => none

/-- A node whose parts are still to be resolved. -/
inductive Outline (φ : Type := BasicForm) (L : Type := ListAccessor) (U : Type := UnionAccessor)
    (C : Type := ContainerAccessor)
  | basic (handler : Handler φ)
  | list (handler : Handler L) (size : SizeRule) (element : Descriptor)
  | union (handler : Handler U) (nullable : Bool) (variants : List Descriptor)
  | container (handler : Handler C) (fields : List Descriptor)

/-- What tells the entries of a cache apart. -/
structure CacheKey where
  shape : ShapeId
  hint : Option String
  deriving DecidableEq

def Descriptor.cacheKey (d : Descriptor) : CacheKey := ⟨d.shape, d.hint⟩

/-- The nodes that were resolved so far. -/
abbrev FormatCache (φ : Type := BasicForm) (L : Type := ListAccessor) (U : Type := UnionAccessor)
    (C : Type := ContainerAccessor) :=
  List (CacheKey × Format φ L U C)

namespace Catalog

/-- The greatest size of a value whose encoding has one. -/
def maxFixedSize : Nat := 0xffffffff

variable {φ L U C : Type} [Sized φ]

/-- Checks that a fixed size fits in 32 bits. -/
def checkFixedSize (f : Format φ L U C) : Except SchemaError (Format φ L U C) :=
  match f.fixedSize with
  | some size => if size ≤ maxFixedSize then .ok f else .error (.sizeOverflow f.name)
  | none => .ok f

/-- A check gives back what it accepts. -/
theorem eq_of_checkFixedSize {f g : Format φ L U C} (h : checkFixedSize f = .ok g) : g = f := by
  unfold checkFixedSize at h
  split at h
  · split at h
    · cases h
      rfl
    · cases h
  · cases h
    rfl

end Catalog

section

variable {B φ L U C : Type} [Accessor B] [Formed B φ] [Sized φ] [Accessor L] [Accessor U]
  [Accessor C]

/-- The uses of shapes that the parts of a node are. -/
def Outline.parts : Outline φ L U C → List Descriptor
  | basic _ => []
  | list _ _ element => [element]
  | union _ _ variants => variants
  | container _ fields => fields

namespace Catalog

/-- A use of a shape as a field of a container. -/
def fieldDescriptor (c : Catalog B L U C) (f : Field) : Descriptor :=
  ((c.schema.descriptor f.shape).forField f.name).withHint f.hint

/-- The failure to handle a use of a shape. -/
def unsupported (c : Catalog B L U C) (d : Descriptor) : SchemaError :=
  .unsupported (c.schema.name d.shape) d.field d.hint

/-- The node of a use of a shape, as far as its own declaration and accessor give it. -/
def outline (c : Catalog B L U C) (d : Descriptor) : Except SchemaError (Outline φ L U C) := do
  let last := c.schema.structural d
  let declaration := c.schema.declaration? last.shape
  match ← c.registry.resolve c.schema d, declaration with
  | .basic a, _ => return .basic (a.basicAt c.schema d)
  | .list a, some (.sequence element _) =>
    return .list (a.plainAt c.schema d) last.size (c.schema.descriptor element)
  | .union a, some (.union variants nullable) =>
    return .union (a.plainAt c.schema d) nullable (variants.map c.schema.descriptor)
  | .container a, some (.container fields) =>
    return .container (a.plainAt c.schema d) (fields.map c.fieldDescriptor)
  | _, _ => throw (c.unsupported d)

/-- The number that a length stands for. -/
def extent (c : Catalog B L U C) (shape : String) : Extent → Except SchemaError UInt64
  | .literal n => .ok n
  | .named name => SizeVars.require c.sizes shape name

/-- The number of elements that a sequence declares. -/
def regime (c : Catalog B L U C) (shape : String) : SizeRule → Except SchemaError Regime
  | .vector length => do
    let n ← c.extent shape length
    if n = 0 then throw (.emptyVector shape) else return .vector n
  | .bounded limit => do return .list (some (← c.extent shape limit))
  | .unbounded => .ok (.list none)

/-- The node of a use of a shape, from its outline and the formats of its parts. -/
def finish (c : Catalog B L U C) (d : Descriptor) (outline : Outline φ L U C)
    (parts : List (Format φ L U C)) : Except SchemaError (Format φ L U C) :=
  let head : Heading := ⟨c.schema.name d.shape, d⟩
  match outline, parts with
  | .basic a, _ => .ok (.basic head a)
  | .list a size _, element :: _ => do
    checkFixedSize (.list head a (← c.regime head.name size) element)
  | .list _ _ _, [] => .error (c.unsupported d)
  | .union a nullable _, variants => .ok (.union head a nullable variants)
  | .container a _, fields => checkFixedSize (.ofFields head a fields)

/-- The format of a use of a shape that stands before `bound` in the table. -/
def formatBelow (c : Catalog B L U C) :
    (bound : Nat) → Descriptor → Except SchemaError (Format φ L U C)
  | 0, d => .error (c.unsupported d)
  | bound + 1, d => do
    let outline ← c.outline d
    let parts ← outline.parts.mapM (c.formatBelow bound)
    c.finish d outline parts

/-- The format of a use of a shape. -/
def format (c : Catalog B L U C) (d : Descriptor) : Except SchemaError (Format φ L U C) :=
  c.formatBelow c.schema.size d

/-- Resolution through a cache, which outlives a failure. -/
abbrev Cached (φ : Type := BasicForm) (L : Type := ListAccessor) (U : Type := UnionAccessor)
    (C : Type := ContainerAccessor) :=
  ExceptT SchemaError (StateM (FormatCache φ L U C))

/-- The format of a use of a shape that stands before `bound` in the table, through the cache. -/
def resolveBelow (c : Catalog B L U C) :
    (bound : Nat) → Descriptor → Cached φ L U C (Format φ L U C)
  | 0, d => throw (c.unsupported d)
  | bound + 1, d => do
    match (← get).lookup d.cacheKey with
    | some f => return f.forField d.field
    | none =>
      let outline ← liftM (c.outline d)
      -- Parts enter the cache before the node does, and stay there if the node fails.
      let parts ← outline.parts.mapM (c.resolveBelow bound)
      let f ← liftM (c.finish d outline parts)
      modify fun cache => (d.cacheKey, f) :: cache
      return f

/-- The format of a use of a shape, through the cache. -/
def resolve (c : Catalog B L U C) (d : Descriptor) : Cached φ L U C (Format φ L U C) :=
  c.resolveBelow c.schema.size d

end Catalog

end

end SimpleSerialize
