/-
The size of the encodings of a shape, as its declaration gives it.

The encodings of a shape may all have one size, which is then counted over numbers of any size
(`Catalog.ExactSize`), or their size may depend on the value (`Schema.Varies`).  Neither looks at
formats, accessors or limits.  Main statements:

* `Catalog.ExactSize.unique`: a shape has at most one exact size;
* `Catalog.ExactSize.not_varies`: and none if its size varies;
* `Catalog.resolvable_iff`: whether all that can be reached from a shape is admissible, link by link.
-/
import Mathlib.Algebra.GroupWithZero.Nat
import Mathlib.Logic.Relation
import SimpleSerialize.Proofs.Descent

namespace SimpleSerialize

/-- The number of bytes of every value. -/
def BasicKind.size : BasicKind → Nat
  | bool => 1
  | uint width => width.toNat
  | bytes length => length.toNat

theorem BasicKind.size_lt (kind : BasicKind) : kind.size < 2 ^ 32 := by
  cases kind with
  | bool => decide
  | uint width => exact Nat.lt_trans width.toNat_lt (by decide)
  | bytes length => exact length.toNat_lt

theorem BasicKind.size_form (kind : BasicKind) : kind.form.size = kind.size := by
  cases kind <;> rfl

/-- The length that the bound of a sequence is given by, if there is one. -/
def SizeRule.extent? : SizeRule → Option Extent
  | vector length => some length
  | bounded limit => some limit
  | unbounded => none

namespace Schema

variable {s : Schema} {id other next last : ShapeId} {d : Declaration}
  {links : List (String × Rebuild)}

/-! ### What can be reached -/

/-- The declaration of a shape refers to another shape. -/
def Refers (s : Schema) (id other : ShapeId) : Prop :=
  ∃ d, s.declaration? id = some d ∧ other ∈ d.references

/-- A shape, the shapes that it refers to, and those that they refer to in turn. -/
def Reaches (s : Schema) : ShapeId → ShapeId → Prop := Relation.ReflTransGen s.Refers

theorem reaches_iff (declared : s.declaration? id = some d) :
    s.Reaches id other ↔ id = other ∨ ∃ r ∈ d.references, s.Reaches r other := by
  rw [Reaches, Relation.ReflTransGen.cases_head_iff]
  refine or_congr_right (exists_congr fun r => and_congr_left fun _ => ?_)
  constructor
  · rintro ⟨d', declared', mem⟩
    cases declared.symm.trans declared'
    exact mem
  · exact fun mem => ⟨d, declared, mem⟩

theorem reaches_self (id : ShapeId) : s.Reaches id id := .refl

theorem Reaches.of_reference (declared : s.declaration? id = some d) {r : ShapeId}
    (mem : r ∈ d.references) (h : s.Reaches r other) : s.Reaches id other :=
  .head ⟨d, declared, mem⟩ h

theorem TravelsAs.reaches (travels : s.TravelsAs id links last) : s.Reaches id last := by
  induction travels with
  | target => exact .refl
  | link declared _ ih => exact ih.of_reference declared List.mem_cons_self

/-- The size of the encodings of a shape depends on the value: it is a list or a union, or has a part
of which that is true. -/
inductive Varies (s : Schema) : ShapeId → Prop
  | list {id element : ShapeId} {size : SizeRule} :
    s.declaration? id = some (.sequence element size) → (∀ length, size ≠ .vector length) →
    Varies s id
  | vector {id element : ShapeId} {length : Extent} :
    s.declaration? id = some (.sequence element (.vector length)) → Varies s element → Varies s id
  | union {id : ShapeId} {variants : List ShapeId} {nullable : Bool} :
    s.declaration? id = some (.union variants nullable) → Varies s id
  | container {id : ShapeId} {fields : List Field} {field : Field} :
    s.declaration? id = some (.container fields) → field ∈ fields → Varies s field.shape →
    Varies s id
  | subclass {id target : ShapeId} {rebuild : Rebuild} :
    s.declaration? id = some (.subclass target rebuild) → Varies s target → Varies s id

theorem TravelsAs.varies (travels : s.TravelsAs id links last) (h : s.Varies last) :
    s.Varies id := by
  induction travels with
  | target => exact h
  | link declared _ ih => exact .subclass declared (ih h)

end Schema

namespace Catalog

open Schema

variable {c : Catalog} {id other last : ShapeId} {d : Declaration} {n m : Nat} {size : Option Nat}
  {links : List (String × Rebuild)}

/-- The number that a length stands for, if it stands for one. -/
def count? (c : Catalog) : Extent → Option UInt64
  | .literal n => some n
  | .named name => c.sizes name

/-! ### Exact sizes -/

/-- The encodings of a shape all have one size: it is basic, or a vector or a container all of whose
parts are of that kind. -/
inductive ExactSize (c : Catalog) : ShapeId → Nat → Prop
  | basic {id : ShapeId} {kind : BasicKind} :
    c.schema.declaration? id = some (.basic kind) → ExactSize c id kind.size
  | vector {id element : ShapeId} {length : Extent} {count : UInt64} {n : Nat} :
    c.schema.declaration? id = some (.sequence element (.vector length)) →
    c.count? length = some count → ExactSize c element n → ExactSize c id (count.toNat * n)
  | container {id : ShapeId} {fields : List Field} {sizes : List Nat} :
    c.schema.declaration? id = some (.container fields) → fields.length = sizes.length →
    (∀ row ∈ fields.zip sizes, ExactSize c row.1.shape row.2) → ExactSize c id sizes.sum
  | subclass {id target : ShapeId} {rebuild : Rebuild} {n : Nat} :
    c.schema.declaration? id = some (.subclass target rebuild) → ExactSize c target n →
    ExactSize c id n

namespace ExactSize

theorem of_travelsAs (travels : c.schema.TravelsAs id links last) (h : c.ExactSize last n) :
    c.ExactSize id n := by
  induction travels with
  | target => exact h
  | link declared _ ih => exact .subclass declared (ih h)

end ExactSize

/-- What the declaration of a shape says of its exact size. -/
def SizeBy (c : Catalog) (n : Nat) : Declaration → Prop
  | .basic kind => n = kind.size
  | .sequence element (.vector length) =>
    ∃ count m, c.count? length = some count ∧ c.ExactSize element m ∧ n = count.toNat * m
  | .sequence _ _ => False
  | .union _ _ => False
  | .container fields =>
    ∃ sizes, List.Forall₂ (fun field m => c.ExactSize field.shape m) fields sizes ∧ n = sizes.sum
  | .subclass target _ => c.ExactSize target n

theorem exactSize_iff (declared : c.schema.declaration? id = some d) :
    c.ExactSize id n ↔ c.SizeBy n d := by
  constructor
  · intro h
    cases h with
    | basic declared' =>
      cases declared.symm.trans declared'
      rfl
    | vector declared' known element =>
      cases declared.symm.trans declared'
      exact ⟨_, _, known, element, rfl⟩
    | container declared' same each =>
      cases declared.symm.trans declared'
      exact ⟨_, List.forall₂_iff_zip.mpr ⟨same, fun mem => each _ mem⟩, rfl⟩
    | subclass declared' target =>
      cases declared.symm.trans declared'
      exact target
  · intro h
    cases d with
    | basic kind => exact h ▸ .basic declared
    | sequence element size =>
      cases size with
      | vector length =>
        obtain ⟨count, m, known, element, rfl⟩ := h
        exact .vector declared known element
      | bounded limit => cases h
      | unbounded => cases h
    | union variants nullable => cases h
    | container fields =>
      obtain ⟨sizes, each, rfl⟩ := h
      obtain ⟨same, each⟩ := List.forall₂_iff_zip.mp each
      exact .container declared same fun row mem => each mem
    | subclass target rebuild => exact .subclass declared h

namespace ExactSize

/-- A shape has at most one exact size. -/
theorem unique (h : c.ExactSize id n) (h' : c.ExactSize id m) : n = m := by
  induction h generalizing m with
  | basic declared => exact ((exactSize_iff declared).mp h').symm
  | vector declared known _ ih =>
    obtain ⟨count, m, known', element, rfl⟩ := (exactSize_iff declared).mp h'
    cases known.symm.trans known'
    rw [ih element]
  | @container id fields sizes declared same _ ih =>
    obtain ⟨sizes', each, rfl⟩ := (exactSize_iff declared).mp h'
    -- Field by field, the sizes of one list are those of the other.
    have every : List.Forall₂ (fun field n => ∀ m, c.ExactSize field.shape m → n = m) fields sizes :=
      List.forall₂_iff_zip.mpr ⟨same, fun mem m => ih _ mem⟩
    have equal : List.Forall₂ (· = ·) sizes sizes' :=
      forall₂_of_common every.flip each.flip fun n _ m _ field unique => unique m
    rw [List.forall₂_eq_eq_eq] at equal
    rw [equal]
  | subclass declared _ ih => exact ih ((exactSize_iff declared).mp h')

/-- A shape with an exact size is of no other size. -/
theorem not_varies (h : c.ExactSize id n) : ¬c.schema.Varies id := by
  intro varies
  induction varies generalizing n with
  | @list id element size declared notVector =>
    have sized := (exactSize_iff declared).mp h
    cases size with
    | vector length => exact notVector length rfl
    | bounded limit => exact sized
    | unbounded => exact sized
  | vector declared _ ih =>
    obtain ⟨count, m, -, element, -⟩ := (exactSize_iff declared).mp h
    exact ih element
  | union declared => exact (exactSize_iff declared).mp h
  | @container id fields field declared mem _ ih =>
    obtain ⟨sizes, each, -⟩ := (exactSize_iff declared).mp h
    have every : ∀ field ∈ fields, ∃ m, c.ExactSize field.shape m :=
      forall_left each fun field m sized => ⟨m, sized⟩
    obtain ⟨m, sized⟩ := every _ mem
    exact ih sized
  | subclass declared _ ih => exact ih ((exactSize_iff declared).mp h)

end ExactSize

/-- A size that is read off a format is that of a shape. -/
def Measures (c : Catalog) (id : ShapeId) : Option Nat → Prop
  | some n => c.ExactSize id n
  | none => c.schema.Varies id

theorem Measures.of_travelsAs (travels : c.schema.TravelsAs id links last)
    (h : c.Measures last size) : c.Measures id size := by
  cases size with
  | some n => exact ExactSize.of_travelsAs travels h
  | none => exact travels.varies h

theorem Measures.eq_some_iff (h : c.Measures id size) : size = some n ↔ c.ExactSize id n := by
  cases size with
  | some m =>
    rw [Option.some.injEq]
    exact ⟨fun same => same ▸ h, fun sized => ExactSize.unique h sized⟩
  | none =>
    constructor
    · intro same
      cases same
    · exact fun sized => absurd h sized.not_varies

theorem Measures.eq_none_iff (h : c.Measures id size) : size = none ↔ c.schema.Varies id := by
  cases size with
  | some m =>
    constructor
    · intro same
      cases same
    · exact fun varies => absurd varies (ExactSize.not_varies h)
  | none => exact ⟨fun _ => h, fun _ => rfl⟩

/-! ### What has to hold of all that can be reached -/

/-- What has to hold of a shape: its length is known, is not zero if it is a vector, and its exact
size, if it has one, fits in 32 bits. -/
structure Admissible (c : Catalog) (id : ShapeId) : Prop where
  known : ∀ element size name, c.schema.declaration? id = some (.sequence element size) →
    size.extent? = some (.named name) → ∃ n, c.sizes name = some n
  nonempty : ∀ element length, c.schema.declaration? id = some (.sequence element (.vector length)) →
    c.count? length ≠ some 0
  small : ∀ n, c.ExactSize id n → n < 2 ^ 32

/-- Everything that a shape reaches is admissible. -/
def Resolvable (c : Catalog) (id : ShapeId) : Prop :=
  ∀ other, c.schema.Reaches id other → c.Admissible other

theorem resolvable_iff (declared : c.schema.declaration? id = some d) :
    c.Resolvable id ↔ c.Admissible id ∧ ∀ r ∈ d.references, c.Resolvable r := by
  constructor
  · intro h
    exact ⟨h id (reaches_self id), fun r mem other reached => h other (reached.of_reference declared mem)⟩
  · rintro ⟨here, below⟩ other reached
    rcases (reaches_iff declared).mp reached with rfl | ⟨r, mem, reached⟩
    · exact here
    · exact below r mem other reached

/-- A shape that travels as another asks for nothing more. -/
theorem resolvable_of_travelsAs (travels : c.schema.TravelsAs id links last) :
    c.Resolvable id ↔ c.Resolvable last := by
  constructor
  · exact fun h other reached => h other (travels.reaches.trans reached)
  · intro h
    induction travels with
    | target => exact h
    | @link id next last rebuild links declared _ ih =>
      have below := ih h
      refine (resolvable_iff declared).mpr ⟨⟨?_, ?_, fun n sized => ?_⟩, ?_⟩
      · exact fun element size name declared' => nomatch declared.symm.trans declared'
      · exact fun element length declared' => nomatch declared.symm.trans declared'
      · exact (below next (reaches_self next)).small n ((exactSize_iff declared).mp sized)
      · exact List.forall_mem_singleton.mpr below

end Catalog

end SimpleSerialize
