/-
Shapes whose encodings all have one size.

The size is counted once, when a shape is resolved.  The bytes that are written for a value are written
by accessors, at the leaves, and what is read is checked in three places: at basic values, at vectors
and at containers.  All of these agree, and which shapes have a size is told by the table of shapes
alone.  Main statements:

* `Layout.slots_of_fixed`: without offsets nothing can be wrong with a fixed part that is long enough;
* `Format.decode_of_short`, `Format.decode_of_long`: buffers of another length are refused;
* `Catalog.settled_of_formatBelow`: a shape that resolves, with whatever accessors and hints, has the
  size that its declaration gives;
* `Codec.fixedSize_exact`: what a codec says of the size of a shape is true of all that it does.
-/
import SimpleSerialize.Proofs.Links
import SimpleSerialize.Proofs.Resolvable
import SimpleSerialize.Proofs.RoundTrip

namespace SimpleSerialize

/-! ### Buffers of another length -/

namespace Layout

variable {shape : String} {sizes : List (Option Nat)} {bytes : Bytes}

/-- Without offsets, nothing can be wrong with a fixed part. -/
theorem slots_of_fixed {fixedLength total index : Nat} {previous : Option Nat}
    (fixed : sizes.all Option.isSome) :
    ∃ found, slots shape fixedLength total index previous sizes bytes = .ok found := by
  induction sizes generalizing index bytes with
  | nil => exact ⟨[], rfl⟩
  | cons size sizes ih =>
    cases size with
    | none => cases fixed
    | some width =>
      obtain ⟨rest, found⟩ := @ih (bytes.drop width) (index + 1) fixed
      exact ⟨.inline (bytes.take width) :: rest, by rw [slots, found, ok_bind]; rfl⟩

theorem windows_of_short (short : bytes.length < fixedLength sizes) :
    windows shape sizes bytes = .error (.truncated shape (fixedLength sizes) bytes.length) := by
  rw [windows, if_pos short]

theorem windows_of_long (fixed : sizes.all Option.isSome) (long : fixedLength sizes < bytes.length) :
    windows shape sizes bytes = .error (.trailing shape (bytes.length - fixedLength sizes)) := by
  obtain ⟨found, slots⟩ :=
    @slots_of_fixed shape sizes bytes (fixedLength sizes) bytes.length 0 none fixed
  rw [windows, if_neg (Nat.not_lt_of_lt long), slots, ok_bind, if_pos ⟨fixed, long⟩]

end Layout

namespace Format

variable {f : Format} {n : Nat} {bytes : Bytes}

/-- A vector of elements of one size has the size of all of them. -/
theorem fixedSize_vector {head : Heading} {a : Handler ListAccessor} {length : UInt64}
    {element : Format} (size : (list head a (.vector length) element).fixedSize = some n) :
    ∃ width, element.fixedSize = some width ∧ length.toNat * width = n :=
  Option.map_eq_some_iff.mp size

/-- A container of parts of one size each has the size of all of them. -/
theorem fixedSize_container {head : Heading} {a : Handler ContainerAccessor} {fields : List Format}
    {kept : Option Nat} (lawful : (container head a fields kept).Lawful)
    (size : (container head a fields kept).fixedSize = some n) :
    (fields.map fixedSize).all Option.isSome ∧ Layout.fixedLength (fields.map fixedSize) = n := by
  have same : kept = totalSize fields := lawful.here
  exact fixedLength_of_totalSize (same ▸ size)

/-- A buffer that is too short for a value of fixed size is refused, -/
theorem decode_of_short (lawful : f.Lawful) (size : f.fixedSize = some n) (short : bytes.length < n) :
    f.decode bytes = .error (.truncated f.name n bytes.length) := by
  cases f with
  | basic head a =>
    cases size
    rw [BasicForm.sized_eq] at short ⊢
    rw [decode, checkSize, if_pos short]
    rfl
  | list head a regime element =>
    cases regime with
    | list limit => cases size
    | vector length =>
      obtain ⟨width, each, rfl⟩ := fixedSize_vector size
      rw [decode, each, Layout.elementWindows, Layout.fixedCount, if_pos short]
      rfl
  | union head a nullable variants => cases size
  | container head a fields kept =>
    obtain ⟨-, rfl⟩ := fixedSize_container lawful size
    rw [decode, Layout.windows_of_short short]
    rfl

/-- and so is one that is too long. -/
theorem decode_of_long (lawful : f.Lawful) (size : f.fixedSize = some n) (long : n < bytes.length) :
    f.decode bytes = .error (.trailing f.name (bytes.length - n)) := by
  cases f with
  | basic head a =>
    cases size
    rw [BasicForm.sized_eq] at long ⊢
    rw [decode, checkSize, if_neg (Nat.not_lt_of_lt long), if_pos long]
    rfl
  | list head a regime element =>
    cases regime with
    | list limit => cases size
    | vector length =>
      obtain ⟨width, each, rfl⟩ := fixedSize_vector size
      rw [decode, each, Layout.elementWindows, Layout.fixedCount, if_neg (Nat.not_lt_of_lt long),
        if_pos long]
      rfl
  | union head a nullable variants => cases size
  | container head a fields kept =>
    obtain ⟨fixed, rfl⟩ := fixedSize_container lawful size
    rw [decode, Layout.windows_of_long fixed long]
    rfl

end Format

/-! ### Resolution -/

namespace Catalog

open Schema

variable {c : Catalog} {bound : Nat} {d : Descriptor} {f : Format}

theorem head_of_finish {outline : Outline} {parts : List Format}
    (h : c.finish d outline parts = .ok f) : f.head = ⟨c.schema.name d.shape, d⟩ := by
  rw [finish.eq_def] at h
  split at h
  · cases h
    rfl
  · obtain ⟨regime, -, h⟩ := bind_eq_ok.mp h
    obtain rfl := eq_of_checkFixedSize h
    rfl
  · cases h
  · cases h
    rfl
  · obtain rfl := eq_of_checkFixedSize h
    rfl

/-- A format is named after the shape that it was resolved for. -/
theorem name_of_formatBelow (h : c.formatBelow bound d = .ok f) : f.name = c.schema.name d.shape := by
  cases bound with
  | zero => cases h
  | succ bound =>
    obtain ⟨outline, parts, -, -, h⟩ := formatBelow_succ_eq_ok.mp h
    rw [Format.name, head_of_finish h]

/-- A shape that resolves has the size that its declaration gives. -/
theorem settled_of_formatBelow (wf : c.schema.WellFormed) {id : ShapeId} {field hint : Option String}
    (h : c.formatBelow bound (c.schema.use id field hint) = .ok f) : c.Settled id (.ok f) := by
  induction bound generalizing id field hint f with
  | zero => cases h
  | succ bound ih =>
    obtain ⟨outline, parts, ho, hp, h⟩ := formatBelow_succ_eq_ok.mp h
    obtain ⟨links, last, travels⟩ := travelsAs_of_outline wf ho
    obtain ⟨declaration, declared, -⟩ := travels.declared
    have fits := fits_of_outline wf travels declared ho
    have each : List.Forall₂ (fun r p => c.Settled r (.ok p)) declaration.references parts := by
      rw [← fits.shapes_parts, List.forall₂_map_left_iff]
      exact (uses_of_parts ho hp).imp fun part p ⟨_, found⟩ => ih found
    have settled : c.Settled id (c.finish (c.schema.use id field hint) outline parts) :=
      settled_finish travels declared fits each
    rwa [h] at settled

end Catalog

/-! ### Codecs -/

namespace Codec

variable {catalog : Catalog} {hasher : Hasher} {c : Codec} {shape : ShapeId} {f : Format}

/-- A shape that resolves with a fixed size has that size: all that is written for it is as long, and
whatever is shorter or longer is not read.  The shapes without one are those whose size varies. -/
theorem fixedSize_exact (wf : catalog.schema.WellFormed) (session : Session catalog hasher c)
    (resolved : catalog.format (catalog.schema.descriptor shape) = .ok f) :
    (∀ n, f.fixedSize = some n →
      ((fixedSize shape).run c).1 = .ok (some n) ∧ n < 2 ^ 32 ∧
      (∀ v bytes, ((encode shape v).run c).1 = .ok bytes → bytes.length = n) ∧
      (∀ bytes, bytes.length < n → ((decode shape bytes).run c).1 =
        .error (.decode (.truncated (catalog.schema.name shape) n bytes.length))) ∧
      ∀ bytes, n < bytes.length → ((decode shape bytes).run c).1 =
        .error (.decode (.trailing (catalog.schema.name shape) (bytes.length - n)))) ∧
    (((fixedSize shape).run c).1 = .ok none ↔ catalog.schema.Varies shape) := by
  have lawful := Catalog.lawful_of_format resolved
  have size : ((fixedSize shape).run c).1 = .ok f.fixedSize := run_withFormat session resolved _
  have name : f.name = catalog.schema.name shape := by
    rw [Catalog.name_of_formatBelow resolved, Schema.shape_descriptor]
  have found : catalog.format (catalog.schema.use shape none none) = .ok f := by
    rw [Schema.use_none]
    exact resolved
  have settled := Catalog.settled_of_formatBelow wf found
  have measures := settled.measures
  refine ⟨fun n fixed => ⟨fixed ▸ size, ?_, fun v bytes encoded => ?_, fun bytes short => ?_,
    fun bytes long => ?_⟩, ?_⟩
  · exact (settled.1 shape (Schema.reaches_self shape)).small n (measures.eq_some_iff.mp fixed)
  · exact Format.length_of_encode lawful ((encode_eq_ok session resolved).mp encoded) n fixed
  · rw [decode, run_withFormat session resolved, Format.decode_of_short lawful fixed short, name]
    rfl
  · rw [decode, run_withFormat session resolved, Format.decode_of_long lawful fixed long, name]
    rfl
  · rw [size, ← measures.eq_none_iff, Except.ok.injEq]

/-- A number, a vector of three, a container without fields, and a container of them all. -/
def cellSchema : Schema where
  entries := [
    ⟨"uint16", .basic (.uint 2)⟩,
    ⟨"Vector[uint16,3]", .sequence 0 (.vector (.literal 3))⟩,
    ⟨"Nothing", .container []⟩,
    ⟨"Cell", .container [⟨"key", 0, none⟩, ⟨"rest", 2, none⟩, ⟨"row", 1, none⟩]⟩]

theorem wellFormed_cell : cellSchema.WellFormed := by decide

theorem fixedSize_exact_cell :
    let c : Codec := { catalog := { schema := cellSchema } }
    ((fixedSize 3).run c).1 = .ok (some 8) ∧ ¬cellSchema.Varies 3 ∧
      ((decode 3 [1, 2]).run c).1 = .error (.decode (.truncated "Cell" 8 2)) ∧
      ((decode 3 [1, 0, 2, 0, 3, 0, 4, 0, 5]).run c).1 = .error (.decode (.trailing "Cell" 1)) := by
  intro c
  obtain ⟨f, resolved, fixed⟩ :
      ∃ f, c.catalog.format (c.catalog.schema.descriptor 3) = .ok f ∧ f.fixedSize = some 8 :=
    ⟨_, rfl, rfl⟩
  obtain ⟨sized, varies⟩ := fixedSize_exact wellFormed_cell .start resolved
  obtain ⟨size, -, -, short, long⟩ := sized 8 fixed
  refine ⟨size, fun none => ?_, short [1, 2] (by decide),
    long [1, 0, 2, 0, 3, 0, 4, 0, 5] (by decide)⟩
  cases size.symm.trans (varies.mpr none)

end Codec

end SimpleSerialize
