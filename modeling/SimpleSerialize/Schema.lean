/-
Shapes and the table that declares them.

A shape is declared once, by name, and is known afterwards by its place in the table; the table keeps
an index of the places of its names.  A declaration refers to other shapes by place.
`Schema.WellFormed` says that it only refers to places before its own and that no name occurs twice;
every walk down the table then ends.

A `Descriptor` is one use of a shape: as a field of some name, perhaps with a hint at the accessor
that should handle it.  A shape declared as a subclass of a target travels as its target;
`Schema.chain` follows such links from a descriptor down to the shape that gives the structure.
-/
import SimpleSerialize.Error
import SimpleSerialize.Value

namespace SimpleSerialize

/-- A place in the table of shapes.  Programs keep places in 32 bits; here they have no bound, which
makes no difference to tables of at most `2 ^ 32` rows (`Builder.Reached.toNat_place`). -/
abbrev ShapeId := Nat

/-- What the bytes of a basic shape mean. -/
inductive BasicKind
  | bool
  /-- An unsigned integer of `width` bytes. -/
  | uint (width : UInt8)
  /-- A byte string of `length` bytes. -/
  | bytes (length : UInt32)
  deriving DecidableEq

/-- A length written down, or one known by the name of a size variable. -/
inductive Extent
  | literal (n : UInt64)
  | named (name : String)
  deriving DecidableEq

/-- The bound that a sequence declares for its length. -/
inductive SizeRule
  | vector (length : Extent)
  | bounded (limit : Extent)
  | unbounded
  deriving DecidableEq

/-- What a subclass makes of a value decoded as its target; a text refuses the value. -/
abbrev Rebuild := Value → Except String Value

/-- A named field of a container. -/
structure Field where
  name : String
  shape : ShapeId
  hint : Option String := none
  deriving DecidableEq

/-- The structure of a shape. -/
inductive Declaration
  | basic (kind : BasicKind)
  | sequence (element : ShapeId) (size : SizeRule)
  /-- Variants in the order of their selectors.  When `nullable`, selector `0` is the empty case and
  the variants count from `1`. -/
  | union (variants : List ShapeId) (nullable : Bool)
  | container (fields : List Field)
  /-- A shape that travels as `target`. -/
  | subclass (target : ShapeId) (rebuild : Rebuild)

namespace BasicKind

/-- The widths that an unsigned integer may have. -/
def uintWidths : List UInt8 := [1, 2, 4, 8, 16, 32]

def shapeName : BasicKind → String
  | bool => "bool"
  | uint width => s!"uint{8 * width.toNat}"
  | bytes length => s!"Bytes{length}"

end BasicKind

def Extent.display : Extent → String
  | literal n => toString n
  | named name => name

namespace Declaration

/-- The shapes a declaration refers to. -/
def references : Declaration → List ShapeId
  | basic _ => []
  | sequence element _ => [element]
  | union variants _ => variants
  | container fields => fields.map (·.shape)
  | subclass target _ => [target]

/-- Whether two declarations have one structure.  What a subclass makes of decoded values does not
count. -/
def sameStructure : Declaration → Declaration → Bool
  | basic a, basic b => a == b
  | sequence a r, sequence b s => a == b && r == s
  | union as m, union bs n => as == bs && m == n
  | container fs, container gs => fs == gs
  | subclass a _, subclass b _ => a == b
  | _, _ => false

end Declaration

/-- A row of the table of shapes. -/
structure Entry where
  name : String
  declaration : Declaration

namespace Entry

/-- The places of the names of some rows, of which the first stands at `start`. -/
def indexFrom (start : ShapeId) : List Entry → List (String × ShapeId)
  | [] => []
  | e :: es => (e.name, start) :: indexFrom (start + 1) es

/-- Looking in the index of some rows is looking through the rows. -/
theorem lookup_indexFrom (start : ShapeId) (es : List Entry) (name : String) :
    (indexFrom start es).lookup name = (es.findIdx? (·.name == name)).map (· + start) := by
  induction es generalizing start with
  | nil => rfl
  | cons e es ih =>
    have same : (name == e.name) = (e.name == name) := BEq.comm
    have next : (· + start) ∘ (· + 1) = (· + (start + 1)) :=
      funext fun place => Nat.add_right_comm place 1 start
    rw [indexFrom, List.lookup_cons, List.findIdx?_cons, ih, same]
    cases e.name == name with
    | true => simp
    | false => simp [next]

end Entry

/-- The table of shapes, and the index of the places of its names, which answers as the rows do. -/
structure Schema where
  entries : List Entry := []
  index : List (String × ShapeId) := Entry.indexFrom 0 entries
  in_step : ∀ name, index.lookup name = entries.findIdx? (·.name == name) := by
    exact fun name => (Entry.lookup_indexFrom 0 _ name).trans Option.map_id'

/-- One use of a shape. -/
structure Descriptor where
  shape : ShapeId
  size : SizeRule
  substitution : Option ShapeId
  field : Option String := none
  hint : Option String := none
  deriving DecidableEq

namespace Descriptor

def forField (d : Descriptor) (name : String) : Descriptor := { d with field := some name }

def withHint (d : Descriptor) (hint : Option String) : Descriptor := { d with hint := hint }

end Descriptor

namespace Schema

def size (s : Schema) : Nat := s.entries.length

/-- The name of a shape of the table. -/
def name (s : Schema) (id : ShapeId) : String := (s.entries[id]?.map (·.name)).getD ""

def declaration? (s : Schema) (id : ShapeId) : Option Declaration :=
  s.entries[id]?.map (·.declaration)

/-- The place of a name. -/
def find? (s : Schema) (name : String) : Option ShapeId := s.index.lookup name

theorem find?_eq (s : Schema) (name : String) :
    s.find? name = s.entries.findIdx? (·.name == name) := s.in_step name

/-- Puts a row at the end of the table, and its place into the index. -/
def push (s : Schema) (e : Entry) : Schema where
  entries := s.entries ++ [e]
  index := s.index ++ [(e.name, s.entries.length)]
  in_step name := by
    have last := Entry.lookup_indexFrom s.entries.length [e] name
    rw [Entry.indexFrom, Entry.indexFrom] at last
    rw [List.lookup_append, List.findIdx?_append, s.in_step, last]

theorem prefix_push (s : Schema) (e : Entry) : s.entries <+: (s.push e).entries :=
  List.prefix_append _ _

theorem getElem?_push (s : Schema) (e : Entry) : (s.push e).entries[s.size]? = some e :=
  List.getElem?_concat_length

/-- The place of a name that has to be in the table. -/
def require (s : Schema) (name : String) : Except SchemaError ShapeId :=
  match s.find? name with
  | some id => .ok id
  | none => .error (.unknownShape name)

/-- A shape used on its own. -/
def descriptor (s : Schema) (id : ShapeId) : Descriptor :=
  match s.declaration? id with
  | some (.sequence _ size) => ⟨id, size, none, none, none⟩
  | some (.subclass target _) => ⟨id, .unbounded, some target, none, none⟩
  | _ => ⟨id, .unbounded, none, none, none⟩

/-- The same use of the shape that a subclass travels as. -/
def substituted? (s : Schema) (d : Descriptor) : Option Descriptor :=
  d.substitution.map fun target => { s.descriptor target with field := d.field, hint := d.hint }

/-- At most `links` links from a descriptor towards the shape that gives its structure. -/
def chainOf (s : Schema) : (links : Nat) → Descriptor → List Descriptor
  | 0, _ => []
  | links + 1, d =>
    match s.substituted? d with
    | some target => target :: s.chainOf links target
    | none => []

/-- The targets that a use of a shape is referred to, one after the other.  Each stands before the
shape that refers to it, so that no chain is longer than its first shape's place. -/
def chain (s : Schema) (d : Descriptor) : List Descriptor := s.chainOf d.shape d

/-- The use of the shape that gives a descriptor its structure. -/
def structural (s : Schema) (d : Descriptor) : Descriptor := (s.chain d).getLastD d

/-- What a shape makes of a value decoded as its target. -/
def rebuild (s : Schema) (id : ShapeId) : Rebuild :=
  match s.declaration? id with
  | some (.subclass _ rebuild) => rebuild
  | _ => .ok

/-- Declarations refer to earlier places only, and no name occurs twice. -/
structure WellFormed (s : Schema) : Prop where
  references_lt : ∀ (id : Nat) (e : Entry), s.entries[id]? = some e →
    ∀ r ∈ e.declaration.references, r < id
  nodup : (s.entries.map (·.name)).Nodup

theorem wellFormed_iff {s : Schema} : s.WellFormed ↔
    (∀ row ∈ s.entries.zipIdx, ∀ r ∈ row.1.declaration.references, r < row.2) ∧
      (s.entries.map (·.name)).Nodup := by
  constructor
  · rintro ⟨lt, nodup⟩
    exact ⟨fun row mem => lt row.2 row.1 (List.mem_zipIdx_iff_getElem?.mp mem), nodup⟩
  · rintro ⟨lt, nodup⟩
    exact ⟨fun id e here => lt (e, id) (List.mk_mem_zipIdx_iff_getElem?.mpr here), nodup⟩

instance (s : Schema) : Decidable s.WellFormed := decidable_of_iff _ wellFormed_iff.symm

@[simp] theorem shape_descriptor (s : Schema) (id : ShapeId) : (s.descriptor id).shape = id := by
  unfold descriptor
  split <;> rfl

end Schema

end SimpleSerialize
