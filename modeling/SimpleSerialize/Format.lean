/-
Formats: shapes made ready for walking.

A format is a tree.  Every node knows the name of its shape, the use of the shape that it was made
for, the accessor fitted to that use, and the formats of its parts.  Whether the encoding of a node
has the same size for every value, and what that size is, is read off the tree: basic shapes have a
size, vectors and containers have one if all their parts do, lists and unions have none.

Trees may share parts, and be far larger when written out than in memory.  So a container keeps the
size of its fields, as counted when it was made by `Format.ofFields`.
-/
import SimpleSerialize.Accessor
import SimpleSerialize.Layout

namespace SimpleSerialize

/-- What every node of a format knows of itself. -/
structure Heading where
  name : String
  descriptor : Descriptor
  deriving DecidableEq

/-- A shape made ready for walking.  Its basic nodes know a `φ` of their use, the others have the
accessors of their categories. -/
inductive Format (φ : Type := BasicForm) (L : Type := ListAccessor) (U : Type := UnionAccessor)
    (C : Type := ContainerAccessor)
  | basic (head : Heading) (handler : Handler φ)
  | list (head : Heading) (handler : Handler L) (regime : Regime) (element : Format φ L U C)
  /-- The variants that have a body, in the order of their selectors.  When `nullable`, selector `0`
  is the empty case and the variants count from `1`. -/
  | union (head : Heading) (handler : Handler U) (nullable : Bool)
      (variants : List (Format φ L U C))
  /-- The size of the fields together is kept with them. -/
  | container (head : Heading) (handler : Handler C) (fields : List (Format φ L U C))
      (size : Option Nat)

namespace Format

variable {φ L U C : Type}

def head : Format φ L U C → Heading
  | basic head _ => head
  | list head _ _ _ => head
  | union head _ _ _ => head
  | container head _ _ _ => head

/-- The name of the shape. -/
def name (f : Format φ L U C) : String := f.head.name

def descriptor (f : Format φ L U C) : Descriptor := f.head.descriptor

/-- The same format for a use under another field. -/
def forField (field : Option String) : Format φ L U C → Format φ L U C
  | basic h a => basic { h with descriptor.field := field } a
  | list h a r e => list { h with descriptor.field := field } a r e
  | union h a n vs => union { h with descriptor.field := field } a n vs
  | container h a fs size => container { h with descriptor.field := field } a fs size

/-- The size of the encoding, if it is the same for every value. -/
def fixedSize [Sized φ] : Format φ L U C → Option Nat
  | basic _ a => some (Sized.size a.base)
  | list _ _ (.vector length) element => element.fixedSize.map (length.toNat * ·)
  | list _ _ (.list _) _ => none
  | union _ _ _ _ => none
  | container _ _ _ size => size

/-- The size of some encodings together, if it is the same for all values. -/
def totalSize [Sized φ] : List (Format φ L U C) → Option Nat
  | [] => some 0
  | f :: fs =>
    match f.fixedSize, totalSize fs with
    | some a, some b => some (a + b)
    | _, _ => none

/-- The container of some fields. -/
def ofFields [Sized φ] (head : Heading) (handler : Handler C) (fields : List (Format φ L U C)) :
    Format φ L U C :=
  .container head handler fields (totalSize fields)

def isFixedSize (f : Format) : Bool := f.fixedSize.isSome

/-- The bytes that a node takes in the fixed part of what it is a part of. -/
def slotSize (f : Format) : Nat := f.fixedSize.getD Layout.offsetSize

/-- Whether values share chunks inside a sequence. -/
def packable : Format → Bool
  | basic _ a => a.base.packable
  | _ => false

/-- The field that a node stands for. -/
def fieldName (f : Format φ L U C) : String := f.descriptor.field.getD ""

end Format

/-- What a selector of a union stands for. -/
inductive Variant (α : Type)
  | empty
  | body (a : α)

/-- What a selector stands for, among variants in order. -/
def Variant.select {α : Type} (nullable : Bool) (variants : List α) (selector : UInt32) :
    Option (Variant α) :=
  if nullable then
    if selector = 0 then some .empty else variants[selector.toNat - 1]?.map .body
  else variants[selector.toNat]?.map .body

end SimpleSerialize
