/-
Accessors: how values of the four categories are taken apart and put together.

Each accessor supports some uses of shapes and answers to names, by which hints select it.  Whoever
uses the library may bring accessors of any types with these two abilities (`Accessor`); the stock
accessors look at nothing of a use but the declaration of its shape (`ShapeAccessor`).  A shape
that travels as a target is handled by the target's accessor inside one wrapper for every link of
the chain; a wrapper hands decoded values to the rebuild function of its link.  `Wrapped.fit` fits a
wrapped accessor to a use of a shape.  The result, a `Handler`, no longer needs the table of shapes:
it knows the name under which the accessor itself reports errors and the name for each refusal.
-/
import SimpleSerialize.Bytes.LittleEndian
import SimpleSerialize.Schema

namespace SimpleSerialize

inductive BasicAccessor
  | bool
  | uint
  | bytes
  deriving DecidableEq

inductive ListAccessor
  /-- Any sequence, held as a list of values. -/
  | sequence
  /-- Sequences of single bytes, held as a byte string. -/
  | byteSequence
  deriving DecidableEq

inductive UnionAccessor
  | tagged
  deriving DecidableEq

inductive ContainerAccessor
  | fields
  deriving DecidableEq

/-- What hints and the search for an accessor need to know of one. -/
class Accessor (α : Type) where
  names : α → List String
  supports : α → Schema → Descriptor → Bool

/-- An accessor that supports all uses of a shape or none. -/
class ShapeAccessor (α : Type) where
  names : α → List String
  supports : α → Schema → ShapeId → Bool

instance {α : Type} [ShapeAccessor α] : Accessor α where
  names := ShapeAccessor.names
  supports a s d := ShapeAccessor.supports a s d.shape

@[simp] theorem ShapeAccessor.supports_eq {α : Type} [ShapeAccessor α] (a : α) (s : Schema)
    (d : Descriptor) : Accessor.supports a s d = ShapeAccessor.supports a s d.shape := rfl

@[simp] theorem ShapeAccessor.names_eq {α : Type} [ShapeAccessor α] (a : α) :
    Accessor.names a = ShapeAccessor.names a := rfl

instance : ShapeAccessor BasicAccessor where
  names
    | .bool => ["bool", "boolean"]
    | .uint => ["uint", "integer"]
    | .bytes => ["bytes", "hash"]
  supports a s id :=
    match a, s.declaration? id with
    | .bool, some (.basic .bool) => true
    | .uint, some (.basic (.uint _)) => true
    | .bytes, some (.basic (.bytes _)) => true
    | _, _ => false

instance : ShapeAccessor ListAccessor where
  names
    | .sequence => ["list", "vector"]
    | .byteSequence => ["byte_list", "list", "vector"]
  supports a s id :=
    match a, s.declaration? id with
    | .sequence, some (.sequence _ _) => true
    | .byteSequence, some (.sequence element _) =>
      match s.declaration? element with
      | some (.basic kind) => kind == .uint 1
      | _ => false
    | _, _ => false

instance : ShapeAccessor UnionAccessor where
  names _ := ["union"]
  supports _ s id :=
    match s.declaration? id with
    | some (.union _ _) => true
    | _ => false

instance : ShapeAccessor ContainerAccessor where
  names _ := ["container"]
  supports _ s id :=
    match s.declaration? id with
    | some (.container _) => true
    | _ => false

/-- A basic accessor fitted to a declaration: what its bytes are. -/
inductive BasicForm
  | bool
  | uint (width : Nat)
  | bytes (length : Nat)
  deriving DecidableEq

/-- What a basic accessor knows of a use of a shape once it is fitted to it, a `φ`. -/
class Formed (α : Type) (φ : outParam Type) where
  form : α → Schema → Descriptor → φ

/-- The number of bytes that a basic accessor takes where it is fitted to a use of a shape. -/
class Sized (φ : Type) where
  size : φ → Nat

/-- The form that an accessor reads off a declaration; off one that it does not support it reads
nothing, and the width is zero. -/
def BasicAccessor.form (a : BasicAccessor) (s : Schema) (id : ShapeId) : BasicForm :=
  match a, s.declaration? id with
  | .bool, _ => .bool
  | .uint, some (.basic (.uint width)) => .uint width.toNat
  | .uint, _ => .uint 0
  | .bytes, some (.basic (.bytes length)) => .bytes length.toNat
  | .bytes, _ => .bytes 0

instance : Formed BasicAccessor BasicForm where
  form a s d := a.form s d.shape

@[simp] theorem BasicAccessor.formed_eq (a : BasicAccessor) (s : Schema) (d : Descriptor) :
    Formed.form a s d = a.form s d.shape := rfl

/-- Writing at the end of a buffer.  What was written before a failure stays there. -/
abbrev Writer := ExceptT EncodeError (StateM Bytes)

namespace Writer

def put (bs : Bytes) : Writer Unit := modify (· ++ bs)

/-- Cuts the buffer to a length, or fills it up with zeros. -/
def resize (length : Nat) : Writer Unit :=
  modify fun out => out.take length ++ List.replicate (length - out.length) 0

end Writer

namespace BasicForm

def accessor : BasicForm → BasicAccessor
  | bool => .bool
  | uint _ => .uint
  | bytes _ => .bytes

/-- The number of bytes of every value. -/
def size : BasicForm → Nat
  | bool => 1
  | uint width => width
  | bytes length => length

instance : Sized BasicForm := ⟨size⟩

@[simp] theorem sized_eq (form : BasicForm) : Sized.size form = form.size := rfl

/-- Whether values share chunks inside a sequence.  Byte strings keep chunks of their own. -/
def packable : BasicForm → Bool
  | bytes _ => false
  | _ => true

/-- The numeral of an integer that has to fit a width. -/
def encodeInteger (shape : String) (width n : Nat) : Except EncodeError Bytes :=
  if n < LittleEndian.capacity width then .ok (LittleEndian.encode width n)
  else .error (.integerOverflow shape width)

/-- The bytes of a basic value. -/
def encode (shape : String) : BasicForm → Value → Except EncodeError Bytes
  | bool, .bool b => .ok [if b then 1 else 0]
  | bool, v => .error (.valueMismatch shape "bool" v.kind)
  | uint width, .uint n => encodeInteger shape width n.toNat
  | uint width, .bigUint n => encodeInteger shape width n
  | uint _, v => .error (.valueMismatch shape "integer" v.kind)
  | bytes length, .bytes bs =>
    if bs.length = length then .ok bs
    else .error (.byteWidth shape (.wrongWidth length bs.length))
  | bytes _, v => .error (.valueMismatch shape "bytes" v.kind)

/-- Writes a value at the end of a buffer.  All checks come before the first byte. -/
def write [BigNumbers] (shape : String) : BasicForm → Value → Writer Unit
  | bool, .bool b => Writer.put [if b then 1 else 0]
  | bool, v => throw (.valueMismatch shape "bool" v.kind)
  | uint width, .uint n => do
    let start := (← get).length
    -- A word of 64 bits cannot be shifted by as many or more.
    if width < 8 ∧ n >>> UInt64.ofNat (8 * width) ≠ 0 then throw (.integerOverflow shape width)
    Writer.put ((LittleEndian.encode 8 n.toNat).take (min width 8))
    Writer.resize (start + width)
  | uint width, .bigUint n => do
    let start := (← get).length
    if 8 * width < BigNumbers.bits n then throw (.integerOverflow shape width)
    if n ≠ 0 then Writer.put (BigNumbers.digits n)
    Writer.resize (start + width)
  | uint _, v => throw (.valueMismatch shape "integer" v.kind)
  | bytes length, .bytes bs => do
    if bs.length ≠ length then throw (.byteWidth shape (.wrongWidth length bs.length))
    Writer.put bs
  | bytes _, v => throw (.valueMismatch shape "bytes" v.kind)

/-- The value of bytes whose number was checked before. -/
def decode [BigNumbers] (shape : String) : BasicForm → Bytes → Except DecodeError Value
  | bool, [0] => .ok (.bool false)
  | bool, [1] => .ok (.bool true)
  | bool, bs => .error (.invalidBasic shape bs)
  | uint _, bs =>
    if bs.length ≤ 8 then .ok (.uint (UInt64.ofNat (LittleEndian.decode bs)))
    else .ok (.bigUint (BigNumbers.ofDigits bs))
  | bytes _, bs => .ok (.bytes bs)

theorem length_of_encodeInteger {shape : String} {width n : Nat} {bs : Bytes}
    (h : encodeInteger shape width n = .ok bs) : bs.length = width := by
  unfold encodeInteger at h
  split at h
  · cases h
    simp
  · cases h

/-- The size does not depend on the value. -/
theorem length_of_encode {shape : String} {form : BasicForm} {v : Value} {bs : Bytes}
    (h : form.encode shape v = .ok bs) : bs.length = form.size := by
  unfold encode at h
  split at h
  · cases h
    rfl
  · cases h
  · exact length_of_encodeInteger h
  · exact length_of_encodeInteger h
  · cases h
  · split at h
    · cases h
      assumption
    · cases h
  · cases h

end BasicForm

namespace ListAccessor

/-- The elements of a sequence. -/
def items (shape : String) : ListAccessor → Value → Except EncodeError (List Value)
  | sequence, .list items => .ok items
  | sequence, v => .error (.valueMismatch shape "sequence" v.kind)
  | byteSequence, .bytes bs => .ok (bs.map fun b => .uint b.toUInt64)
  | byteSequence, .list items => .ok items
  | byteSequence, v => .error (.valueMismatch shape "bytes" v.kind)

/-- The element at a place of a sequence. -/
def child (shape : String) (a : ListAccessor) (v : Value) (index : Nat) :
    Except EncodeError Value := do
  let items ← a.items shape v
  match items[index]? with
  | some item => .ok item
  | none => .error (.rangeOutOfBounds shape index 1 items.length)

/-- The byte that an element of a byte string has to be. -/
def byteOf (shape : String) : Value → Except DecodeError UInt8
  | .uint n =>
    if n < 256 then .ok n.toUInt8
    else .error (.rejected shape ("byte sequence element decoded as " ++ (Value.uint n).kind))
  | v => .error (.rejected shape ("byte sequence element decoded as " ++ v.kind))

/-- The sequence of some elements. -/
def create (shape : String) : ListAccessor → List Value → Except DecodeError Value
  | sequence, items => .ok (.list items)
  | byteSequence, items => (items.mapM (byteOf shape)).map .bytes

end ListAccessor

namespace UnionAccessor

def selector (shape : String) : UnionAccessor → Value → Except EncodeError UInt32
  | tagged, .union s _ => .ok s
  | tagged, v => .error (.valueMismatch shape "union" v.kind)

def body? : UnionAccessor → Value → Option Value
  | tagged, .union _ body => body
  | tagged, _ => none

def create : UnionAccessor → UInt32 → Option Value → Value
  | tagged, s, body => .union s body

end UnionAccessor

namespace ContainerAccessor

def fieldsOf (shape : String) : ContainerAccessor → Value → Except EncodeError (List Value)
  | fields, .container vs => .ok vs
  | fields, v => .error (.valueMismatch shape "container" v.kind)

def create : ContainerAccessor → List Value → Value
  | fields, vs => .container vs

end ContainerAccessor

/-- An accessor fitted to a use of a shape. -/
structure Handler (α : Type) where
  base : α
  /-- The shape that the accessor works on, by which its errors go. -/
  shape : String
  /-- The wrappers around the accessor, outermost first: the shape and the function of each link. -/
  links : List (String × Rebuild) := []

namespace Handler

variable {α : Type}

/-- Hands a decoded value to one link. -/
def relink (v : Value) (link : String × Rebuild) : Except DecodeError Value :=
  match link.2 v with
  | .ok w => .ok w
  | .error reason => .error (.rejected link.1 reason)

/-- Hands a decoded value to every link, innermost first. -/
def finish (h : Handler α) (v : Value) : Except DecodeError Value :=
  h.links.reverse.foldlM relink v

def encode (h : Handler BasicForm) (v : Value) : Except EncodeError Bytes := h.base.encode h.shape v

/-- Writes a value at the end of a buffer, and gives the buffer back whether or not that failed. -/
def append [BigNumbers] (h : Handler BasicForm) (out : Bytes) (v : Value) :
    Except EncodeError Unit × Bytes :=
  (h.base.write h.shape v).run.run out

def decode [BigNumbers] (h : Handler BasicForm) (bs : Bytes) : Except DecodeError Value :=
  h.base.decode h.shape bs >>= h.finish

def items (h : Handler ListAccessor) (v : Value) : Except EncodeError (List Value) :=
  h.base.items h.shape v

def count (h : Handler ListAccessor) (v : Value) : Except EncodeError Nat :=
  (h.items v).map List.length

def child (h : Handler ListAccessor) (v : Value) (index : Nat) : Except EncodeError Value :=
  h.base.child h.shape v index

def createList (h : Handler ListAccessor) (items : List Value) : Except DecodeError Value :=
  h.base.create h.shape items >>= h.finish

def selector (h : Handler UnionAccessor) (v : Value) : Except EncodeError UInt32 :=
  h.base.selector h.shape v

def body? (h : Handler UnionAccessor) (v : Value) : Option Value := h.base.body? v

def createUnion (h : Handler UnionAccessor) (selector : UInt32) (body : Option Value) :
    Except DecodeError Value :=
  h.finish (h.base.create selector body)

def fields (h : Handler ContainerAccessor) (v : Value) : Except EncodeError (List Value) :=
  h.base.fieldsOf h.shape v

def createContainer (h : Handler ContainerAccessor) (fields : List Value) :
    Except DecodeError Value :=
  h.finish (h.base.create fields)

end Handler

/-- An accessor inside wrappers. -/
structure Wrapped (α : Type) where
  base : α
  /-- The functions of the wrappers, outermost first. -/
  wrappers : List Rebuild := []

namespace Wrapped

variable {α β φ : Type}

/-- Puts one more wrapper around an accessor. -/
def wrap (f : Rebuild) (w : Wrapped α) : Wrapped α := ⟨w.base, f :: w.wrappers⟩

/-- Each wrapper passes the target of its shape on, or the shape itself if it has no target. -/
def descend (s : Schema) : List Rebuild → Descriptor → List (String × Rebuild) × Descriptor
  | [], d => ([], d)
  | f :: fs, d =>
    let (links, last) := descend s fs ((s.substituted? d).getD d)
    ((s.name d.shape, f) :: links, last)

/-- Whether the accessor inside supports the use that reaches it. -/
def supports [Accessor α] (w : Wrapped α) (s : Schema) (d : Descriptor) : Bool :=
  Accessor.supports w.base s (descend s w.wrappers d).2

/-- Fits a wrapped accessor to a use of a shape. -/
def fit (w : Wrapped α) (s : Schema) (d : Descriptor) (read : α → Descriptor → β) : Handler β :=
  let (links, last) := descend s w.wrappers d
  ⟨read w.base last, s.name last.shape, links⟩

def basicAt [Formed α φ] (w : Wrapped α) (s : Schema) (d : Descriptor) : Handler φ :=
  w.fit s d fun a last => Formed.form a s last

/-- Fits an accessor that needs nothing of the declaration. -/
def plainAt (w : Wrapped α) (s : Schema) (d : Descriptor) : Handler α := w.fit s d fun a _ => a

end Wrapped

end SimpleSerialize
