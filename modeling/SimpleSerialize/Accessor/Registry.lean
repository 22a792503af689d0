/-
The search for an accessor.

A registry keeps accessors of each category, those added later in front.  A use of a shape is
followed to the end of its chain of targets; the first accessor that supports the use found there
and answers to the hint is taken, with one wrapper for each link of the chain.  The accessors of a
category are of any type that has the abilities of one; where nothing is said, they are the stock
accessors.
-/
import SimpleSerialize.Accessor

namespace SimpleSerialize

/-- An accessor of any category, inside its wrappers. -/
inductive Access (B : Type := BasicAccessor) (L : Type := ListAccessor)
    (U : Type := UnionAccessor) (C : Type := ContainerAccessor)
  | basic (a : Wrapped B)
  | list (a : Wrapped L)
  | union (a : Wrapped U)
  | container (a : Wrapped C)

/-- A stock accessor of any category, on its own. -/
inductive Stock
  | basic (a : BasicAccessor)
  | list (a : ListAccessor)
  | union (a : UnionAccessor)
  | container (a : ContainerAccessor)
  deriving DecidableEq

/-- Puts wrappers around a stock accessor, the outermost first. -/
def Stock.within (fs : List Rebuild) : Stock → Access
  | basic a => .basic ⟨a, fs⟩
  | list a => .list ⟨a, fs⟩
  | union a => .union ⟨a, fs⟩
  | container a => .container ⟨a, fs⟩

/-- Accessors of each category, the preferred ones in front. -/
structure Registry (B : Type := BasicAccessor) (L : Type := ListAccessor)
    (U : Type := UnionAccessor) (C : Type := ContainerAccessor) where
  basic : List B := []
  list : List L := []
  union : List U := []
  container : List C := []

section

variable {B L U C : Type} [Accessor B] [Accessor L] [Accessor U] [Accessor C]

namespace Registry

def addBasic (r : Registry B L U C) (a : B) : Registry B L U C := { r with basic := a :: r.basic }

def addList (r : Registry B L U C) (a : L) : Registry B L U C := { r with list := a :: r.list }

def addUnion (r : Registry B L U C) (a : U) : Registry B L U C := { r with union := a :: r.union }

def addContainer (r : Registry B L U C) (a : C) : Registry B L U C :=
  { r with container := a :: r.container }

/-- Puts a stock accessor in front of those of its category. -/
def add (r : Registry) : Stock → Registry
  | .basic a => r.addBasic a
  | .list a => r.addList a
  | .union a => r.addUnion a
  | .container a => r.addContainer a

/-- An accessor for every shape that can be declared; byte strings are preferred for sequences of
bytes. -/
def standard : Registry where
  basic := [.bool, .uint, .bytes]
  list := [.byteSequence, .sequence]
  union := [.tagged]
  container := [.fields]

/-- Whether an accessor supports a use of a shape and answers to its hint. -/
def eligible {α : Type} [Accessor α] (s : Schema) (d : Descriptor) (a : α) : Bool :=
  (match d.hint with
    | some hint => (Accessor.names a).contains hint
    | none => true) && Accessor.supports a s d

/-- The first basic accessor for a use of a shape, chains left aside. -/
def basicAccessor? (r : Registry B L U C) (s : Schema) (d : Descriptor) : Option B :=
  r.basic.find? (eligible s d)

/-- The first accessor of any category for a use of a shape, chains left aside. -/
def direct? (r : Registry B L U C) (s : Schema) (d : Descriptor) (wrappers : List Rebuild) :
    Option (Access B L U C) :=
  (r.basicAccessor? s d).map (fun a => .basic ⟨a, wrappers⟩)
    <|> (r.list.find? (eligible s d)).map (fun a => .list ⟨a, wrappers⟩)
    <|> (r.union.find? (eligible s d)).map (fun a => .union ⟨a, wrappers⟩)
    <|> (r.container.find? (eligible s d)).map (fun a => .container ⟨a, wrappers⟩)

/-- One wrapper for every shape of a chain but the last. -/
def wrappers (s : Schema) (d : Descriptor) : List Rebuild :=
  (d :: s.chain d).dropLast.map fun link => s.rebuild link.shape

/-- The accessor for a use of a shape. -/
def resolve (r : Registry B L U C) (s : Schema) (d : Descriptor) :
    Except SchemaError (Access B L U C) :=
  let last := s.structural d
  match r.direct? s last (wrappers s d) with
  | some access => .ok access
  | none => .error (.unsupported (s.name last.shape) last.field last.hint)

end Registry

namespace Access

def names : Access B L U C → List String
  | basic a => Accessor.names a.base
  | list a => Accessor.names a.base
  | union a => Accessor.names a.base
  | container a => Accessor.names a.base

def category : Access B L U C → String
  | basic _ => "basic"
  | list _ => "list"
  | union _ => "union"
  | container _ => "container"

/-- Puts one more wrapper around an accessor. -/
def wrap (f : Rebuild) : Access B L U C → Access B L U C
  | basic a => basic (a.wrap f)
  | list a => list (a.wrap f)
  | union a => union (a.wrap f)
  | container a => container (a.wrap f)

def supports (s : Schema) (d : Descriptor) : Access B L U C → Bool
  | basic a => a.supports s d
  | list a => a.supports s d
  | union a => a.supports s d
  | container a => a.supports s d

end Access

end

end SimpleSerialize
