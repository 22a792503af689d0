/-
What resolution guarantees.

An accessor may look at the field that a shape is used for.  Where none does, and no stock accessor
does, the field leaves no trace in a format but the field name at its top.  More room below a use of
a shape never changes the format found for it.  Main statements:

* `Registry.blind`: the stock accessors do not look at fields;
* `Catalog.formatBelow_inField`: a use under another field then has the same format, renamed;
* `Catalog.formatBelow_mono`: a format once found is found with more room, too;
* `Catalog.lawful_of_format`: every format that resolution gives is lawful, so that its containers
  keep their sizes, its vectors are not empty and byte strings stand for sequences of bytes only.
-/
import Mathlib.Data.Option.Basic
import SimpleSerialize.Format.Resolve
import SimpleSerialize.Proofs.Nodes

namespace SimpleSerialize

/-- The same use of a shape under a field, or under none. -/
def Descriptor.inField (d : Descriptor) (field : Option String) : Descriptor :=
  { d with field := field }

variable {s : Schema} {d : Descriptor} {field : Option String}

/-! ### Uses under another field -/

namespace Schema

theorem substituted?_inField :
    s.substituted? (d.inField field) = (s.substituted? d).map (·.inField field) := by
  rw [substituted?, substituted?, Option.map_map]
  rfl

theorem chainOf_inField (links : Nat) :
    s.chainOf links (d.inField field) = (s.chainOf links d).map (·.inField field) := by
  induction links generalizing d with
  | zero => rfl
  | succ links ih =>
    rw [chainOf, chainOf, substituted?_inField]
    cases s.substituted? d with
    | none => rfl
    | some target => exact congrArg _ ih

theorem chain_inField : s.chain (d.inField field) = (s.chain d).map (·.inField field) :=
  chainOf_inField d.shape

theorem structural_inField :
    s.structural (d.inField field) = (s.structural d).inField field := by
  rw [structural, structural, chain_inField, List.getLastD_eq_getLast?, List.getLastD_eq_getLast?,
    List.getLast?_map]
  cases (s.chain d).getLast? <;> rfl

end Schema

theorem Registry.wrappers_inField : Registry.wrappers s (d.inField field) = Registry.wrappers s d := by
  have cons : d.inField field :: (s.chain d).map (·.inField field) =
      (d :: s.chain d).map (·.inField field) := rfl
  rw [Registry.wrappers, Registry.wrappers, Schema.chain_inField, cons, ← List.map_dropLast,
    List.map_map]
  rfl

theorem Wrapped.descend_inField (fs : List Rebuild) :
    Wrapped.descend s fs (d.inField field) =
      ((Wrapped.descend s fs d).1, (Wrapped.descend s fs d).2.inField field) := by
  induction fs generalizing d with
  | nil => rfl
  | cons f fs ih =>
    have next : ((s.substituted? (d.inField field)).getD (d.inField field)) =
        ((s.substituted? d).getD d).inField field := by
      rw [Schema.substituted?_inField]
      cases s.substituted? d <;> rfl
    rw [Wrapped.descend, Wrapped.descend, next, ih]
    rfl

/-! ### Accessors that do not look at fields -/

/-- The accessor answers for a use of a shape as for the same use under any other field. -/
def Accessor.Blind {α : Type} [Accessor α] (a : α) : Prop :=
  ∀ (s : Schema) (d : Descriptor) (field : Option String),
    Accessor.supports a s (d.inField field) = Accessor.supports a s d

/-- What the accessor knows of a use of a shape it knows of the same use under any other field. -/
def Formed.Blind {α φ : Type} [Formed α φ] (a : α) : Prop :=
  ∀ (s : Schema) (d : Descriptor) (field : Option String),
    Formed.form a s (d.inField field) = Formed.form a s d

theorem ShapeAccessor.blind {α : Type} [ShapeAccessor α] (a : α) : Accessor.Blind a :=
  fun _ _ _ => rfl

namespace Registry

variable {B φ L U C : Type} [Accessor B] [Formed B φ] [Accessor L] [Accessor U] [Accessor C]

/-- No accessor of the registry looks at the field that a shape is used for. -/
structure Blind (r : Registry B L U C) : Prop where
  basic : ∀ a ∈ r.basic, Accessor.Blind a
  form : ∀ a ∈ r.basic, Formed.Blind a
  list : ∀ a ∈ r.list, Accessor.Blind a
  union : ∀ a ∈ r.union, Accessor.Blind a
  container : ∀ a ∈ r.container, Accessor.Blind a

/-- The stock accessors look at the declaration of a shape alone. -/
theorem blind (r : Registry) : r.Blind where
  basic a _ := ShapeAccessor.blind a
  form _ _ _ _ _ := rfl
  list a _ := ShapeAccessor.blind a
  union a _ := ShapeAccessor.blind a
  container a _ := ShapeAccessor.blind a

theorem find?_inField {α : Type} [Accessor α] {as : List α} (blind : ∀ a ∈ as, Accessor.Blind a) :
    as.find? (eligible s (d.inField field)) = as.find? (eligible s d) := by
  induction as with
  | nil => rfl
  | cons a as ih =>
    obtain ⟨first, others⟩ := List.forall_mem_cons.mp blind
    have same : eligible s (d.inField field) a = eligible s d a :=
      congrArg (_ && ·) (first s d field)
    rw [List.find?_cons, List.find?_cons, same, ih others]

theorem resolve_inField {r : Registry B L U C} {access : Access B L U C} (blind : r.Blind)
    (h : r.resolve s d = .ok access) : r.resolve s (d.inField field) = .ok access := by
  -- The category is looked at without the field, so that the same accessors are tried.
  have same : r.direct? s (s.structural (d.inField field)) (wrappers s (d.inField field)) =
      r.direct? s (s.structural d) (wrappers s d) := by
    rw [Schema.structural_inField, wrappers_inField, direct?, direct?, basicAccessor?,
      basicAccessor?, find?_inField blind.basic, find?_inField blind.list,
      find?_inField blind.union, find?_inField blind.container]
  rw [resolve] at h ⊢
  rw [same]
  split at h
  · exact h
  · cases h

/-- Whatever accessor is taken is one of its category in the registry that supports the use at the
end of the chain. -/
theorem of_resolve {r : Registry B L U C} {access : Access B L U C}
    (h : r.resolve s d = .ok access) :
    let last := s.structural d
    let wrappers := wrappers s d
    (∃ a ∈ r.basic, access = .basic ⟨a, wrappers⟩ ∧ Accessor.supports a s last) ∨
    (∃ a ∈ r.list, access = .list ⟨a, wrappers⟩ ∧ Accessor.supports a s last) ∨
    (∃ a ∈ r.union, access = .union ⟨a, wrappers⟩ ∧ Accessor.supports a s last) ∨
    (∃ a ∈ r.container, access = .container ⟨a, wrappers⟩ ∧ Accessor.supports a s last) := by
  intro last wrappers
  have supported {α : Type} [Accessor α] {as : List α} {a : α}
      (found : as.find? (eligible s last) = some a) :
      a ∈ as ∧ Accessor.supports a s last = true := by
    have eligible := List.find?_some found
    rw [Registry.eligible, Bool.and_eq_true] at eligible
    exact ⟨List.mem_of_find?_eq_some found, eligible.2⟩
  rw [resolve] at h
  split at h
  · rename_i found
    cases h
    simp only [direct?, basicAccessor?, Option.orElse_eq_some, Option.map_eq_some_iff] at found
    rcases found with ⟨a, ha, rfl⟩ | ⟨-, ⟨a, ha, rfl⟩ | ⟨-, ⟨a, ha, rfl⟩ | ⟨-, a, ha, rfl⟩⟩⟩
    · exact .inl ⟨a, (supported ha).1, rfl, (supported ha).2⟩
    · exact .inr (.inl ⟨a, (supported ha).1, rfl, (supported ha).2⟩)
    · exact .inr (.inr (.inl ⟨a, (supported ha).1, rfl, (supported ha).2⟩))
    · exact .inr (.inr (.inr ⟨a, (supported ha).1, rfl, (supported ha).2⟩))
  · cases h

end Registry

theorem Wrapped.plainAt_inField {α : Type} (w : Wrapped α) :
    w.plainAt s (d.inField field) = w.plainAt s d := by
  rw [plainAt, plainAt, fit, fit, descend_inField]
  rfl

theorem Wrapped.basicAt_inField {α φ : Type} [Formed α φ] {w : Wrapped α}
    (blind : Formed.Blind w.base) : w.basicAt s (d.inField field) = w.basicAt s d := by
  rw [basicAt, basicAt, fit, fit, descend_inField]
  simp only [blind s]
  rfl

namespace Catalog

section Nodes

variable {B φ L U C : Type} [Sized φ] {c : Catalog B L U C} {f : Format φ L U C}
  {parts : List (Format φ L U C)} {outline : Outline φ L U C}

theorem checkFixedSize_eq_ok {f g : Format φ L U C} :
    checkFixedSize f = .ok g ↔ f = g ∧ ∀ size ∈ f.fixedSize, size ≤ maxFixedSize := by
  rw [checkFixedSize]
  cases hs : f.fixedSize with
  | none => simp
  | some size =>
    simp only [Option.mem_some_iff, forall_eq']
    split
    · simp_all
    · simp_all

theorem fixedSize_forField : (f.forField field).fixedSize = f.fixedSize := by
  cases f with
  | list _ _ regime _ => cases regime <;> rfl
  | _ => rfl

theorem finish_inField (h : c.finish d outline parts = .ok f) :
    c.finish (d.inField field) outline parts = .ok (f.forField field) := by
  cases outline with
  | basic a =>
    cases h
    rfl
  | list a size element =>
    cases parts with
    | nil => cases h
    | cons part parts =>
      simp only [finish, bind_eq_ok] at h ⊢
      obtain ⟨regime, hregime, h⟩ := h
      obtain ⟨rfl, small⟩ := checkFixedSize_eq_ok.mp h
      refine ⟨regime, hregime, checkFixedSize_eq_ok.mpr ⟨rfl, fun size hsize => ?_⟩⟩
      apply small
      rw [← @fixedSize_forField field]
      exact hsize
  | union a nullable variants =>
    cases h
    rfl
  | container a fields =>
    simp only [finish] at h ⊢
    obtain ⟨rfl, small⟩ := checkFixedSize_eq_ok.mp h
    exact checkFixedSize_eq_ok.mpr ⟨rfl, small⟩

end Nodes

section

variable {B φ L U C : Type} [Accessor B] [Formed B φ] [Accessor L] [Accessor U] [Accessor C]
  {c : Catalog B L U C}

theorem outline_inField {outline : Outline φ L U C} (blind : c.registry.Blind)
    (h : c.outline d = .ok outline) :
    c.outline (d.inField field) = .ok outline := by
  rw [Catalog.outline, bind_eq_ok] at h ⊢
  obtain ⟨access, haccess, h⟩ := h
  refine ⟨access, Registry.resolve_inField blind haccess, ?_⟩
  rw [Schema.structural_inField]
  have same (w : Wrapped B) (taken : access = .basic w) :
      w.basicAt c.schema (d.inField field) = w.basicAt c.schema d := by
    subst taken
    obtain ⟨a, mem, taken, -⟩ | ⟨_, -, taken, -⟩ | ⟨_, -, taken, -⟩ | ⟨_, -, taken, -⟩ :=
      Registry.of_resolve haccess <;> cases taken
    exact Wrapped.basicAt_inField (blind.form a mem)
  simp only [Wrapped.plainAt_inField]
  split at h
  · rw [same _ rfl]
    exact h
  · simp_all [Descriptor.inField]
  · simp_all [Descriptor.inField]
  · simp_all [Descriptor.inField]
  · cases h

variable [Sized φ] {f : Format φ L U C} {bound : Nat}

theorem formatBelow_succ_eq_ok :
    c.formatBelow (bound + 1) d = .ok f ↔ ∃ outline parts, c.outline d = .ok outline ∧
      List.Forall₂ (fun part p => c.formatBelow bound part = .ok p) outline.parts parts ∧
      c.finish d outline parts = .ok f := by
  simp only [formatBelow, bind_eq_ok, mapM_eq_ok]
  constructor
  · rintro ⟨outline, ho, parts, hp, h⟩
    exact ⟨outline, parts, ho, hp, h⟩
  · rintro ⟨outline, parts, ho, hp, h⟩
    exact ⟨outline, ho, parts, hp, h⟩

/-- Where no accessor looks at fields, a use of a shape under another field has the same format,
renamed. -/
theorem formatBelow_inField (blind : c.registry.Blind) (h : c.formatBelow bound d = .ok f) :
    c.formatBelow bound (d.inField field) = .ok (f.forField field) := by
  cases bound with
  | zero => cases h
  | succ bound =>
    obtain ⟨outline, parts, ho, hp, h⟩ := formatBelow_succ_eq_ok.mp h
    exact formatBelow_succ_eq_ok.mpr
      ⟨outline, parts, outline_inField blind ho, hp, finish_inField h⟩

/-- A format once found is found with more room, too. -/
theorem formatBelow_mono {more : Nat} (le : bound ≤ more) (h : c.formatBelow bound d = .ok f) :
    c.formatBelow more d = .ok f := by
  induction bound generalizing more d f with
  | zero => cases h
  | succ bound ih =>
    obtain ⟨more, rfl⟩ : ∃ m, more = m + 1 := ⟨more - 1, by omega⟩
    obtain ⟨outline, parts, ho, hp, h⟩ := formatBelow_succ_eq_ok.mp h
    refine formatBelow_succ_eq_ok.mpr ⟨outline, parts, ho, hp.imp fun part p found => ?_, h⟩
    exact ih (Nat.le_of_succ_le_succ le) found

/-- There is only one format for a use of a shape, however much room it was found in. -/
theorem formatBelow_unique {other : Nat} {g : Format φ L U C} (h : c.formatBelow bound d = .ok f)
    (h' : c.formatBelow other d = .ok g) : f = g := by
  have left := formatBelow_mono (Nat.le_max_left bound other) h
  rw [formatBelow_mono (Nat.le_max_right bound other) h'] at left
  cases left
  rfl

end

/-! ### Lawful formats -/

variable {c : Catalog} {f : Format} {parts : List Format} {outline : Outline} {bound : Nat}

theorem regime_ne_empty {name : String} {size : SizeRule} {regime : Regime}
    (h : c.regime name size = .ok regime) : regime ≠ .vector 0 := by
  rintro rfl
  cases size with
  | vector length =>
    simp only [Catalog.regime, bind_eq_ok] at h
    obtain ⟨n, -, h⟩ := h
    split at h
    · cases h
    · rename_i positive
      rw [pure_eq_ok] at h
      cases h
      exact positive rfl
  | bounded limit =>
    simp only [Catalog.regime, bind_eq_ok, pure_eq_ok] at h
    obtain ⟨n, -, h⟩ := h
    cases h
  | unbounded => cases h

/-- Whatever stock accessor is taken supports the shape at the end of the chain. -/
theorem of_resolve {access : Access} (h : c.registry.resolve c.schema d = .ok access) :
    let last := c.schema.structural d
    let wrappers := Registry.wrappers c.schema d
    (∃ a, access = .basic ⟨a, wrappers⟩ ∧ ShapeAccessor.supports a c.schema last.shape) ∨
    (∃ a, access = .list ⟨a, wrappers⟩ ∧ ShapeAccessor.supports a c.schema last.shape) ∨
    (∃ a, access = .union ⟨a, wrappers⟩ ∧ ShapeAccessor.supports a c.schema last.shape) ∨
    (∃ a, access = .container ⟨a, wrappers⟩ ∧ ShapeAccessor.supports a c.schema last.shape) :=
  (Registry.of_resolve h).imp (fun ⟨a, _, found⟩ => ⟨a, found⟩) fun found =>
    found.imp (fun ⟨a, _, found⟩ => ⟨a, found⟩) fun found =>
      found.imp (fun ⟨a, _, found⟩ => ⟨a, found⟩) fun ⟨a, _, found⟩ => ⟨a, found⟩

/-- The elements of a sequence that is held as a byte string are declared to be bytes. -/
theorem byte_of_outline {a : Handler ListAccessor} {size : SizeRule} {element : Descriptor}
    (h : c.outline d = .ok (.list a size element)) (bytes : a.base = .byteSequence) :
    ∃ id, element = c.schema.descriptor id ∧
      c.schema.declaration? id = some (.basic (.uint 1)) := by
  rw [Catalog.outline, bind_eq_ok] at h
  obtain ⟨access, haccess, h⟩ := h
  split at h
  · cases h
  · rename_i w id rule declared
    cases h
    obtain ⟨a, ha, -⟩ | ⟨a, ha, supported⟩ | ⟨a, ha, -⟩ | ⟨a, ha, -⟩ := of_resolve haccess <;>
      cases ha
    obtain rfl : a = .byteSequence := bytes
    simp only [ShapeAccessor.supports, declared] at supported
    refine ⟨id, rfl, ?_⟩
    split at supported
    · rename_i kind hkind
      rw [hkind]
      simpa using supported
    · cases supported
  · cases h
  · cases h
  · cases h

theorem structural_descriptor {id : ShapeId} {kind : BasicKind}
    (declared : c.schema.declaration? id = some (.basic kind)) :
    c.schema.structural (c.schema.descriptor id) = c.schema.descriptor id ∧
      Registry.wrappers c.schema (c.schema.descriptor id) = [] := by
  have none : c.schema.substituted? (c.schema.descriptor id) = none := by
    simp only [Schema.substituted?, Schema.descriptor, declared, Option.map_none]
  have chain : c.schema.chain (c.schema.descriptor id) = [] := by
    rw [Schema.chain, Schema.shape_descriptor]
    cases id with
    | zero => rfl
    | succ n => rw [Schema.chainOf, none]
  rw [Schema.structural, Registry.wrappers, chain]
  exact ⟨rfl, rfl⟩

/-- A shape that is declared to be a byte has the format of one. -/
theorem isByte_of_formatBelow {id : ShapeId}
    (declared : c.schema.declaration? id = some (.basic (.uint 1)))
    (h : c.formatBelow bound (c.schema.descriptor id) = .ok f) : f.IsByte := by
  cases bound with
  | zero => cases h
  | succ bound =>
    obtain ⟨outline, parts, ho, -, h⟩ := formatBelow_succ_eq_ok.mp h
    rw [Catalog.outline, bind_eq_ok] at ho
    obtain ⟨access, haccess, ho⟩ := ho
    obtain ⟨structural, wrappers⟩ := structural_descriptor declared
    have found := of_resolve haccess
    simp only [structural, wrappers, Schema.shape_descriptor, ShapeAccessor.supports, declared]
      at found ho
    obtain ⟨a, rfl, supported⟩ | ⟨a, rfl, supported⟩ | ⟨a, rfl, supported⟩ | ⟨a, rfl, supported⟩ :=
      found
    · -- Only the accessor of integers supports the shape, and it reads the width back.
      cases a with
      | uint =>
        cases ho
        cases h
        simp only [Format.IsByte, Wrapped.basicAt, Wrapped.fit, Wrapped.descend,
          BasicAccessor.formed_eq, BasicAccessor.form, Schema.shape_descriptor, declared]
        rfl
      | _ => simp at supported
    · cases a <;> simp at supported
    · simp at supported
    · simp at supported

theorem lawful_of_finish (ho : c.outline d = .ok outline)
    (hp : List.Forall₂ (fun part p => c.formatBelow bound part = .ok p) outline.parts parts)
    (lawful : ∀ p ∈ parts, p.Lawful) (h : c.finish d outline parts = .ok f) : f.Lawful := by
  cases outline with
  | basic a =>
    cases h
    exact .node trivial fun _ hs => nomatch hs
  | list a size element =>
    cases parts with
    | nil => cases hp
    | cons p parts =>
      cases hp with
      | cons hp hrest =>
        cases hrest
        simp only [finish, bind_eq_ok] at h
        obtain ⟨regime, hregime, h⟩ := h
        obtain ⟨rfl, -⟩ := checkFixedSize_eq_ok.mp h
        refine .node ⟨regime_ne_empty hregime, fun bytes => ?_⟩ lawful
        obtain ⟨id, rfl, declared⟩ := byte_of_outline ho bytes
        exact isByte_of_formatBelow declared hp
  | union a nullable variants =>
    cases h
    exact .node trivial lawful
  | container a fields =>
    simp only [finish] at h
    obtain ⟨rfl, -⟩ := checkFixedSize_eq_ok.mp h
    exact .node rfl lawful

theorem lawful_of_formatBelow (h : c.formatBelow bound d = .ok f) : f.Lawful := by
  induction bound generalizing d f with
  | zero => cases h
  | succ bound ih =>
    obtain ⟨outline, parts, ho, hp, h⟩ := formatBelow_succ_eq_ok.mp h
    refine lawful_of_finish ho hp (fun p mem => ?_) h
    exact forall_right hp (fun _ _ => ih) p mem

/-- Every format that resolution gives is lawful. -/
theorem lawful_of_format (h : c.format d = .ok f) : f.Lawful := lawful_of_formatBelow h

end Catalog

end SimpleSerialize
