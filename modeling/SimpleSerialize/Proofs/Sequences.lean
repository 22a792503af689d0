/-
Sequences of the same elements.

Shapes that are declared as sequences of the same elements are handled alike; all that tells them
apart is how many elements they admit.  A reader finds out how many there are in different ways, from
the declared length or from the buffer, but where elements have bytes it comes to the same.  Main
statements:

* `Catalog.format_sequence_eq_ok`: the format of a shape that is declared as a sequence;
* `Layout.elementWindows_eq_ok`: which buffers elements are found in, and which elements;
* `Format.decode_list_iff_of_unbounded`: the declared number of elements is a filter on what is read
  without one;
* `Codec.decode_filtered`: the same of codecs.
-/
import SimpleSerialize.Proofs.Resolvable

namespace SimpleSerialize

/-! ### Formats -/

namespace Catalog

open Schema

variable {c : Catalog} {id other last element : ShapeId} {size size' : SizeRule} {f : Format}
  {d : Descriptor} {links : List (String × Rebuild)}

/-- A use of a shape resolves if it has an outline and the parts of that resolve. -/
theorem format_eq_ok (wf : c.schema.WellFormed) (plain : c.Plain d) :
    c.format d = .ok f ↔ ∃ outline parts, c.outline d = .ok outline ∧
      List.Forall₂ (fun part p => c.format part = .ok p) outline.parts parts ∧
      c.finish d outline parts = .ok f := by
  have nonempty {outline : Outline} (h : c.outline d = .ok outline) : 0 < c.schema.size :=
    Nat.zero_lt_of_lt (lt_size_of_outline plain h)
  constructor
  · intro h
    obtain ⟨outline, ho⟩ : ∃ outline, c.outline d = .ok outline := by
      rw [Catalog.format] at h
      cases size : c.schema.size with
      | zero =>
        rw [size] at h
        cases h
      | succ bound =>
        rw [size] at h
        obtain ⟨outline, -, ho, -⟩ := formatBelow_succ_eq_ok.mp h
        exact ⟨outline, ho⟩
    rw [format_eq wf plain (nonempty ho) ho, bind_eq_ok] at h
    obtain ⟨parts, hp, h⟩ := h
    exact ⟨outline, parts, ho, mapM_eq_ok.mp hp, h⟩
  · rintro ⟨outline, parts, ho, hp, h⟩
    rw [format_eq wf plain (nonempty ho) ho, mapM_eq_ok.mpr hp]
    exact h

/-- Which accessors support a sequence depends on its elements only. -/
theorem supports_sequence (declared : c.schema.declaration? id = some (.sequence element size))
    (declared' : c.schema.declaration? other = some (.sequence element size')) :
    (fun a : ListAccessor => ShapeAccessor.supports a c.schema id) =
      fun a => ShapeAccessor.supports a c.schema other := by
  funext a
  cases a <;> simp only [ShapeAccessor.supports, declared, declared']

/-- The format of a shape that is declared as a sequence. -/
theorem format_sequence_eq_ok (wf : c.schema.WellFormed)
    (declared : c.schema.declaration? id = some (.sequence element size)) :
    c.format (c.schema.descriptor id) = .ok f ↔
      ∃ a e regime, (c.registry.list.find? fun a => ShapeAccessor.supports a c.schema id) = some a ∧
        c.format (c.schema.descriptor element) = .ok e ∧
        c.regime (c.schema.name id) size = .ok regime ∧
        checkFixedSize (.list ⟨c.schema.name id, c.schema.descriptor id⟩ ⟨a, c.schema.name id, []⟩
          regime e) = .ok f := by
  rw [format_eq_ok wf (plain_descriptor id)]
  constructor
  · rintro ⟨outline, parts, ho, hp, h⟩
    obtain ⟨a, found, rfl⟩ := (outline_sequence_eq_ok wf declared).mp ho
    cases hp with
    | @cons _ e _ _ first _ =>
      simp only [finish, bind_eq_ok, shape_descriptor] at h
      obtain ⟨regime, hregime, h⟩ := h
      exact ⟨a, e, regime, found, first, hregime, h⟩
  · rintro ⟨a, e, regime, found, first, hregime, h⟩
    refine ⟨_, [e], (outline_sequence_eq_ok wf declared).mpr ⟨a, found, rfl⟩, .cons first .nil, ?_⟩
    simp only [finish, bind_eq_ok, shape_descriptor]
    exact ⟨regime, hregime, h⟩

/-- Where one sequence resolves, a list of the same elements does, too, with the same accessor. -/
theorem format_list_beside (wf : c.schema.WellFormed)
    (declared : c.schema.declaration? id = some (.sequence element size))
    (declared' : c.schema.declaration? other = some (.sequence element size'))
    {limit : Option UInt64} (bound : c.regime (c.schema.name other) size' = .ok (.list limit))
    (h : c.format (c.schema.descriptor id) = .ok f) :
    ∃ a e regime, c.format (c.schema.descriptor element) = .ok e ∧
      c.regime (c.schema.name id) size = .ok regime ∧
      f = .list ⟨c.schema.name id, c.schema.descriptor id⟩ ⟨a, c.schema.name id, []⟩ regime e ∧
      c.format (c.schema.descriptor other) =
        .ok (.list ⟨c.schema.name other, c.schema.descriptor other⟩ ⟨a, c.schema.name other, []⟩
          (.list limit) e) := by
  obtain ⟨a, e, regime, found, first, hregime, h⟩ := (format_sequence_eq_ok wf declared).mp h
  rw [supports_sequence declared declared'] at found
  refine ⟨a, e, regime, first, hregime, eq_of_checkFixedSize h, ?_⟩
  exact (format_sequence_eq_ok wf declared').mpr ⟨a, e, .list limit, found, first, bound, rfl⟩

/-- The format of a shape that travels as a sequence. -/
theorem format_of_sequence (wf : c.schema.WellFormed) (travels : c.schema.TravelsAs id links last)
    (declared : c.schema.declaration? last = some (.sequence element size))
    (h : c.format (c.schema.descriptor id) = .ok f) :
    ∃ a regime e, c.format (c.schema.descriptor element) = .ok e ∧
      f = .list ⟨c.schema.name id, c.schema.descriptor id⟩ a regime e := by
  obtain ⟨outline, parts, ho, hp, h⟩ := (format_eq_ok wf (plain_descriptor id)).mp h
  rw [← use_none] at ho
  cases fits_of_outline wf travels declared ho with
  | sequence element size a =>
    cases hp with
    | @cons _ e _ _ first _ =>
      simp only [finish, bind_eq_ok, shape_descriptor] at h
      obtain ⟨regime, -, h⟩ := h
      exact ⟨a, regime, e, first, eq_of_checkFixedSize h⟩

/-- Where a sequence resolves, be it through subclasses, the unbounded list of the same elements does,
too. -/
theorem format_unbounded_beside (wf : c.schema.WellFormed)
    (travels : c.schema.TravelsAs id links last)
    (declared : c.schema.declaration? last = some (.sequence element size))
    (declared' : c.schema.declaration? other = some (.sequence element .unbounded))
    (h : c.format (c.schema.descriptor id) = .ok f) {e : Format}
    (first : c.format (c.schema.descriptor element) = .ok e) :
    ∃ a, c.format (c.schema.descriptor other) =
      .ok (.list ⟨c.schema.name other, c.schema.descriptor other⟩ ⟨a, c.schema.name other, []⟩
        (.list none) e) := by
  obtain ⟨outline, -, ho, -, -⟩ := (format_eq_ok wf (plain_descriptor id)).mp h
  rw [← use_none, Catalog.outline, bind_eq_ok] at ho
  obtain ⟨access, ho, -⟩ := ho
  rw [Registry.resolve, travels.structural_eq wf, travels.wrappers_eq wf, use_none,
    Registry.direct?_through, Registry.direct?_sequence declared] at ho
  cases found : c.registry.list.find? fun a => ShapeAccessor.supports a c.schema last with
  | some a =>
    rw [supports_sequence declared declared'] at found
    exact ⟨a, (format_sequence_eq_ok wf declared').mpr ⟨a, e, .list none, found, first, rfl, rfl⟩⟩
  | none =>
    rw [found] at ho
    cases ho

/-- The length that a vector resolves with is the one that it declares. -/
theorem regime_vector {name : String} {length : Extent} {n : UInt64} {regime : Regime}
    (known : c.count? length = some n) (h : c.regime name (.vector length) = .ok regime) :
    regime = .vector n := by
  rcases c.extent_eq name length with ⟨m, extent, count⟩ | ⟨_, -, -, extent⟩
  · cases known.symm.trans count
    rw [Catalog.regime, extent, ok_bind] at h
    split at h
    · cases h
    · cases h
      rfl
  · rw [Catalog.regime, extent] at h
    cases h

theorem regime_bounded {limit : Extent} {n : UInt64} (name : String)
    (known : c.count? limit = some n) :
    c.regime name (.bounded limit) = .ok (.list (some n)) := by
  rcases c.extent_eq name limit with ⟨m, extent, count⟩ | ⟨_, rfl, unknown, -⟩
  · cases known.symm.trans count
    rw [Catalog.regime, extent]
    rfl
  · cases unknown.symm.trans known

end Catalog

/-! ### Reading -/

/-- The number of elements of a sequence, in either of the forms that sequences are read in. -/
def Value.count? : Value → Option Nat
  | .list items => some items.length
  | .bytes bs => some bs.length
  | _ => none

namespace ListAccessor

variable {shape : String} {a : ListAccessor} {items : List Value} {v : Value}

theorem create_eq_ok : a.create shape items = .ok v ↔
    (a = .sequence ∧ v = .list items) ∨
      (a = .byteSequence ∧ ∃ bs, v = .bytes bs ∧ items = bs.map fun b => .uint b.toUInt64) := by
  have bytes (bs : Bytes) : items.mapM (byteOf shape) = .ok bs ↔
      items = bs.map fun b => .uint b.toUInt64 := by
    have each := @map_eq_map_iff _ _ _ id (fun b : UInt8 => Value.uint b.toUInt64) items bs
    rw [List.map_id] at each
    rw [mapM_eq_ok, each]
    simp only [byteOf_eq_ok, id]
  cases a with
  | sequence => simp [create, eq_comm]
  | byteSequence =>
    simp only [create, map_eq_ok, bytes, reduceCtorEq, false_and, false_or, true_and]
    exact exists_congr fun bs => and_comm.trans (and_congr_left fun _ => eq_comm)

theorem count?_of_create (h : a.create shape items = .ok v) : v.count? = some items.length := by
  rcases create_eq_ok.mp h with ⟨-, rfl⟩ | ⟨-, bs, rfl, rfl⟩
  · rfl
  · rw [Value.count?, List.length_map]

end ListAccessor

/-- Only vectors are not to be empty. -/
theorem Regime.list_ne_empty {limit : Option UInt64} : Regime.list limit ≠ .vector 0 := by
  intro same
  cases same

namespace Layout

/-- Elements are found in the buffers that they are written to, if there is a way to count them. -/
theorem elementWindows_eq_ok {shape : String} {regime : Regime} {size : Option Nat} {bytes : Bytes}
    {elements : List Bytes} (counted : size = some 0 → regime.isVector)
    (inhabited : regime ≠ .vector 0) :
    elementWindows shape regime size bytes = .ok elements ↔ regime.Admits elements.length ∧
      (∀ p ∈ elementParts size elements, p.Fits) ∧ Written (elementParts size elements) bytes :=
  ⟨written_of_elementWindows,
    fun ⟨admits, fits, written⟩ => elementWindows_of_written admits fits counted inhabited written⟩

end Layout

namespace Format

open Layout

variable {head head' : Heading} {a a' : Handler ListAccessor} {regime : Regime} {element : Format}
  {bytes : Bytes} {v : Value}

/-- The declared number of elements is a filter on what is read without one. -/
theorem decode_list_iff_of_unbounded (same : a.base = a'.base) (plain : a.links = [])
    (plain' : a'.links = []) (sized : element.fixedSize ≠ some 0) (inhabited : regime ≠ .vector 0) :
    (list head a regime element).decode bytes = .ok v ↔
      (list head' a' (.list none) element).decode bytes = .ok v ∧
        ∃ n, v.count? = some n ∧ regime.Admits n := by
  have windows {shape : String} {regime : Regime} {elements : List Bytes}
      (inhabited : regime ≠ .vector 0) :=
    @elementWindows_eq_ok shape regime element.fixedSize bytes elements (fun zero => absurd zero sized)
      inhabited
  have done {b : Handler ListAccessor} (plain : b.links = []) {w : Value} :
      b.finish w = .ok v ↔ w = v := by
    rw [Handler.finish, plain]
    exact pure_eq_ok
  have create (shape shape' : String) (items : List Value) :
      a.base.create shape items = .ok v ↔ a'.base.create shape' items = .ok v := by
    rw [ListAccessor.create_eq_ok, ListAccessor.create_eq_ok, same]
  constructor
  · intro h
    obtain ⟨elements, items, w, found, each, made, last⟩ := decode_list_eq_ok.mp h
    obtain ⟨admits, fits, written⟩ := (windows inhabited).mp found
    obtain rfl := (done plain).mp last
    refine ⟨decode_list_eq_ok.mpr ⟨elements, items, w, ?_, each, (create _ _ items).mp made,
      (done plain').mpr rfl⟩, _, ListAccessor.count?_of_create made, ?_⟩
    · exact (windows Regime.list_ne_empty).mpr ⟨trivial, fits, written⟩
    · rwa [← each.length_eq]
  · rintro ⟨h, n, count, admits⟩
    obtain ⟨elements, items, w, found, each, made, last⟩ := decode_list_eq_ok.mp h
    obtain ⟨-, fits, written⟩ := (windows Regime.list_ne_empty).mp found
    obtain rfl := (done plain').mp last
    have length : n = elements.length := by
      rw [each.length_eq]
      exact Option.some.inj (count.symm.trans (ListAccessor.count?_of_create made))
    rw [length] at admits
    exact decode_list_eq_ok.mpr ⟨elements, items, w, (windows inhabited).mpr ⟨admits, fits, written⟩,
      each, (create _ _ items).mpr made, (done plain).mpr rfl⟩

end Format

/-! ### Codecs -/

namespace Codec

variable {catalog : Catalog} {hasher : Hasher} {c c' : Codec} {id element : ShapeId}

/-- A vector or a bounded list is read as the unbounded list of the same elements, and what is read
is then held against the declared number of elements. -/
theorem decode_filtered (wf : catalog.schema.WellFormed) (session : Session catalog hasher c)
    (session' : Session catalog hasher c')
    (unbounded : catalog.schema.declaration? id = some (.sequence element .unbounded))
    (sized : ((fixedSize element).run c).1 ≠ .ok (some 0)) (bytes : Bytes) (v : Value) :
    (∀ vector length n g,
      catalog.schema.declaration? vector = some (.sequence element (.vector length)) →
      catalog.count? length = some n → catalog.format (catalog.schema.descriptor vector) = .ok g →
      (((decode vector bytes).run c).1 = .ok v ↔
        ((decode id bytes).run c').1 = .ok v ∧ v.count? = some n.toNat)) ∧
    ∀ bounded limit m,
      catalog.schema.declaration? bounded = some (.sequence element (.bounded limit)) →
      catalog.count? limit = some m →
      (((decode bounded bytes).run c).1 = .ok v ↔
        ((decode id bytes).run c').1 = .ok v ∧ ∃ n, v.count? = some n ∧ n ≤ m.toNat) := by
  have filter {other : ShapeId} {head head' : Heading} {a : ListAccessor} {shape shape' : String}
      {regime : Regime} {e : Format}
      (resolved : catalog.format (catalog.schema.descriptor other) =
        .ok (.list head ⟨a, shape, []⟩ regime e))
      (beside : catalog.format (catalog.schema.descriptor id) =
        .ok (.list head' ⟨a, shape', []⟩ (.list none) e))
      (first : catalog.format (catalog.schema.descriptor element) = .ok e)
      (inhabited : regime ≠ .vector 0) :
      ((decode other bytes).run c).1 = .ok v ↔
        ((decode id bytes).run c').1 = .ok v ∧ ∃ n, v.count? = some n ∧ regime.Admits n := by
    have positive : e.fixedSize ≠ some 0 := by
      intro zero
      refine sized ((run_withFormat session first _).trans ?_)
      rw [zero]
    rw [decode_eq_ok session resolved, decode_eq_ok session' beside]
    exact Format.decode_list_iff_of_unbounded rfl rfl rfl positive inhabited
  constructor
  · intro vector length n g declared known resolved
    obtain ⟨a, e, regime, first, hregime, rfl, beside⟩ :=
      Catalog.format_list_beside wf declared unbounded rfl resolved
    have inhabited := Catalog.regime_ne_empty hregime
    obtain rfl := Catalog.regime_vector known hregime
    rw [filter resolved beside first inhabited]
    simp only [Regime.Admits, exists_eq_right]
  · intro bounded limit m declared known
    have bound := Catalog.regime_bounded (catalog.schema.name bounded) known
    constructor
    · intro read
      obtain ⟨f, resolved, -⟩ := (run_withFormat_eq_ok wf session).mp read
      obtain ⟨a, e, regime, first, hregime, rfl, beside⟩ :=
        Catalog.format_list_beside wf declared unbounded rfl resolved
      cases bound.symm.trans hregime
      exact (filter resolved beside first Regime.list_ne_empty).mp read
    · rintro ⟨read, count⟩
      obtain ⟨f, resolved, -⟩ := (run_withFormat_eq_ok wf session').mp read
      obtain ⟨a, e, regime, first, hregime, rfl, beside⟩ :=
        Catalog.format_list_beside wf unbounded declared bound resolved
      cases hregime
      exact (filter beside resolved first Regime.list_ne_empty).mpr ⟨read, count⟩

/-- Numbers, lists of them, and vectors and lists of such lists. -/
def rowsSchema : Schema where
  entries := [
    ⟨"uint8", .basic (.uint 1)⟩,
    ⟨"Row", .sequence 0 .unbounded⟩,
    ⟨"List[Row]", .sequence 1 .unbounded⟩,
    ⟨"Vector[Row,2]", .sequence 1 (.vector (.named "rows"))⟩,
    ⟨"List[Row,1]", .sequence 1 (.bounded (.literal 1))⟩]

theorem wellFormed_rows : rowsSchema.WellFormed := by decide

/-- Two rows make a vector of two, but not a list of at most one. -/
theorem decode_filtered_rows :
    let sizes (name : String) : Option UInt64 := if name = "rows" then some 2 else none
    let c : Codec := { catalog := { schema := rowsSchema, sizes } }
    let bytes : Bytes := [8, 0, 0, 0, 10, 0, 0, 0, 7, 9, 8]
    let v : Value := .list [.bytes [7, 9], .bytes [8]]
    ((decode 2 bytes).run c).1 = .ok v ∧ ((decode 3 bytes).run c).1 = .ok v ∧
      ((decode 4 bytes).run c).1 ≠ .ok v := by
  intro sizes c bytes v
  have unbounded : c.catalog.schema.declaration? 2 = some (.sequence 1 .unbounded) := rfl
  have sized : ((fixedSize 1).run c).1 ≠ .ok (some 0) := by decide +kernel
  obtain ⟨vector, bounded⟩ := decode_filtered wellFormed_rows .start .start unbounded sized bytes v
  have read : ((decode 2 bytes).run c).1 = .ok v := by decide +kernel
  obtain ⟨g, resolved⟩ : ∃ g, c.catalog.format (rowsSchema.descriptor 3) = .ok g := ⟨_, rfl⟩
  refine ⟨read, (vector 3 (.named "rows") 2 g rfl rfl resolved).mpr ⟨read, rfl⟩, fun few => ?_⟩
  obtain ⟨-, n, count, le⟩ := (bounded 4 (.literal 1) 1 rfl rfl).mp few
  cases count
  exact absurd le (by decide)

end Codec

end SimpleSerialize
