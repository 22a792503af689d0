/-
What was written is read back.

A reader finds the bytes of every part where the writer put them, and so gives back the value in its
normal form.  Two things are asked for: that links leave values alone, and that the elements of
lists have bytes to be counted by.  Main statements:

* `Format.length_of_encode`: the encoding of a value of fixed size has that size;
* `Format.decode_of_encode`: the encoding of a value is read as its normal form;
* `Codec.decode_encode_normal`: the same of a codec, whatever it resolved before.
-/
import SimpleSerialize.Proofs.Canonical
import SimpleSerialize.Proofs.Normal
import SimpleSerialize.Proofs.Numerals

namespace SimpleSerialize

/-! ### Basic values -/

namespace BasicForm

variable {shape other : String} {form : BasicForm} {v : Value} {bytes : Bytes}

theorem encodeInteger_eq_ok {width n : Nat} :
    encodeInteger shape width n = .ok bytes ↔
      n < LittleEndian.capacity width ∧ bytes = LittleEndian.encode width n := by
  rw [encodeInteger]
  split <;> simp_all [eq_comm]

section Reading

variable [BigNumbers] [BigNumbers.Lawful]

/-- The numeral of an integer is read in normal form. -/
theorem decode_numeral {width n : Nat} (small : n < LittleEndian.capacity width) :
    (uint width).decode other (LittleEndian.encode width n) =
      .ok (if width ≤ 8 then .uint (UInt64.ofNat n) else .bigUint n) := by
  rw [decode, BigNumbers.Lawful.ofDigits_eq, LittleEndian.length_encode,
    LittleEndian.decode_encode small]
  split <;> rfl

/-- The encoding of a basic value is read as its normal form. -/
theorem decode_of_encode (h : form.encode shape v = .ok bytes) :
    form.decode other bytes = .ok (form.normal v) := by
  rw [encode.eq_def] at h
  split at h
  · cases h
    rename_i b
    cases b <;> rfl
  · cases h
  · obtain ⟨small, rfl⟩ := encodeInteger_eq_ok.mp h
    rw [decode_numeral small, normal, UInt64.ofNat_toNat]
  · obtain ⟨small, rfl⟩ := encodeInteger_eq_ok.mp h
    rw [decode_numeral small, normal]
  · cases h
  · split at h <;> cases h
    rfl
  · cases h

end Reading

end BasicForm

/-! ### Sizes -/

namespace Layout

/-- Children of fixed sizes are laid out in as many bytes as they have together. -/
theorem Written.length_eq {parts : List Part} {bytes : Bytes} (h : Written parts bytes)
    (fits : ∀ p ∈ parts, p.Fits) (fixed : (parts.map (·.1)).all Option.isSome) :
    bytes.length = headerLength parts := by
  rw [h.bytes_eq, bodies_eq_nil fixed, List.append_nil, length_header fits]

end Layout

namespace Format

open Layout

variable {f : Format} {v : Value} {bytes : Bytes}

/-- Fields that have a size together have one each. -/
theorem fixedLength_of_totalSize {fields : List Format} {total : Nat}
    (h : totalSize fields = some total) :
    (fields.map fixedSize).all Option.isSome ∧ fixedLength (fields.map fixedSize) = total := by
  induction fields generalizing total with
  | nil =>
    cases h
    exact ⟨rfl, rfl⟩
  | cons f fields ih =>
    rw [totalSize] at h
    split at h
    · rename_i first others hf hfields
      cases h
      obtain ⟨all, sum⟩ := ih hfields
      refine ⟨?_, ?_⟩
      · rw [List.map_cons, List.all_cons, hf, all]
        rfl
      · rw [List.map_cons, fixedLength_cons, hf, sum]
        rfl
    · cases h

/-- The children of a sequence fit if every element has the size of its format. -/
theorem fits_of_each {element : Format} {items : List Value} {bodies : List Bytes}
    (each : List.Forall₂ (fun _ body => ∀ width ∈ element.fixedSize, body.length = width)
      items bodies) : ∀ p ∈ elementParts element.fixedSize bodies, p.Fits :=
  fits_elementParts.mpr fun width hw =>
    forall_right each fun _ _ sized => sized width hw

/-- The children of a container fit if every field has the size of its format. -/
theorem fits_of_aligned {fields : List Format} {values : List Value} {bodies : List Bytes}
    (h : Aligned (fun f _ body => ∀ width ∈ f.fixedSize, body.length = width) fields values bodies) :
    ∀ p ∈ (fields.map fixedSize).zip bodies, Part.Fits p := by
  induction h with
  | nil => intro p hp; cases hp
  | cons head _ ih =>
    intro p hp
    rcases List.mem_cons.mp hp with rfl | hp
    · exact head
    · exact ih p hp

/-- The fields of a container are found in its layout. -/
theorem windows_of_fields {shape : String} {fields : List Format} {values : List Value}
    {bodies : List Bytes}
    (sized : Aligned (fun f _ body => ∀ width ∈ f.fixedSize, body.length = width) fields values bodies)
    (written : Written ((fields.map fixedSize).zip bodies) bytes) :
    windows shape (fields.map fixedSize) bytes = .ok bodies := by
  have arity : (fields.map fixedSize).length = bodies.length := by
    rw [List.length_map, sized.length_right]
  have read := @windows_of_written shape _ _ (fits_of_aligned sized) written
  rw [List.map_fst_zip (Nat.le_of_eq arity), List.map_snd_zip (Nat.le_of_eq arity.symm)] at read
  exact read

/-- The encoding of a value of fixed size has that size. -/
theorem length_of_encode (lawful : f.Lawful) (h : f.encode v = .ok bytes) :
    ∀ width ∈ f.fixedSize, bytes.length = width := by
  induction f generalizing v bytes with
  | basic head a =>
    intro width hw
    cases hw
    obtain ⟨w, -, encoded⟩ := encode_basic_eq_ok.mp h
    exact BasicForm.length_of_encode encoded
  | list head a regime element ih =>
    intro width hw
    obtain ⟨w, items, bodies, -, -, admits, each, written⟩ := encode_list_eq_ok.mp h
    cases regime with
    | list limit => cases hw
    | vector length =>
      obtain ⟨one, hone, rfl⟩ := Option.map_eq_some_iff.mp hw
      have below : element.Lawful := lawful.inside element List.mem_cons_self
      have fits := fits_of_each (each.imp fun _ _ encoded => ih below encoded)
      have fixed : ((elementParts element.fixedSize bodies).map (·.1)).all Option.isSome := by
        rw [elementParts_sizes, hone]
        simp
      rw [written.length_eq fits fixed, headerLength_elementParts, hone, ← each.length_eq,
        show items.length = length.toNat from admits, Nat.mul_comm]
      rfl
  | union head a nullable variants ih =>
    intro width hw
    cases hw
  | container head a fields size ih =>
    intro width hw
    obtain ⟨w, values, bodies, -, -, each, written⟩ := encode_container_eq_ok.mp h
    -- The size that the container keeps is the one its fields have together.
    have kept : size = totalSize fields := lawful.here
    have total : totalSize fields = some width := kept ▸ hw
    obtain ⟨all, sum⟩ := fixedLength_of_totalSize total
    have fits := fits_of_aligned (each.imp fun f mem value body encoded =>
      ih f mem (lawful.inside f mem) encoded)
    have sizes : ((fields.map fixedSize).zip bodies).map (·.1) = fields.map fixedSize := by
      refine List.map_fst_zip (Nat.le_of_eq ?_)
      rw [List.length_map, each.length_right]
    rw [written.length_eq fits (by rw [sizes, all]), headerLength, sizes, sum]

/-! ### Formats -/

/-- A byte that was written is read as a word. -/
theorem byte_of_encode {item : Value} (isByte : f.IsByte) (h : f.encode item = .ok bytes) :
    ∃ b : UInt8, bytes = [b] ∧ f.normal item = .uint b.toUInt64 := by
  cases f with
  | basic head a =>
    obtain ⟨w, shown, encoded⟩ := encode_basic_eq_ok.mp h
    have form : a.base = .uint 1 := isByte
    have length : bytes.length = 1 := by
      rw [BasicForm.length_of_encode encoded, form]
      rfl
    have read : a.base.decode a.shape bytes = .ok (a.base.normal w) :=
      BasicForm.decode_of_encode encoded
    obtain ⟨b, rfl⟩ := List.length_eq_one_iff.mp length
    refine ⟨b, rfl, ?_⟩
    rw [normal_basic shown]
    have word : UInt64.ofNat (LittleEndian.decode [b]) = b.toUInt64 := by
      rw [LittleEndian.decode, LittleEndian.decode, Nat.mul_zero, Nat.add_zero, UInt64.ofNat_uInt8ToNat]
    rw [form, BasicForm.decode, if_pos (by simp), word] at read
    rw [form]
    exact (Except.ok.inj read).symm
  | _ => cases isByte

theorem isNormal_byte (isByte : f.IsByte) (b : UInt8) : f.IsNormal (.uint b.toUInt64) := by
  cases f with
  | basic head a =>
    have form : a.base = .uint 1 := isByte
    refine .basic ?_
    rw [form]
    exact .word _ (by decide)
  | _ => cases isByte

/-- The sequence of the normal forms of its elements is the normal form of a sequence. -/
theorem create_of_encode {head : Heading} {a : Handler ListAccessor} {regime : Regime}
    {element : Format} {v w : Value} {items : List Value} {bodies : List Bytes}
    (isByte : a.base = .byteSequence → element.IsByte) (shown : v.concrete = some w)
    (hitems : a.items w = .ok items)
    (each : List.Forall₂ (fun item body => element.encode item = .ok body) items bodies) :
    a.base.create a.shape (items.map element.normal) =
      .ok ((list head a regime element).normal v) := by
  rcases ListAccessor.items_eq_ok.mp hitems with rfl | ⟨base, bs, rfl, rfl⟩
  · cases base : a.base with
    | sequence =>
      rw [normal_items base shown]
      rfl
    | byteSequence =>
      rw [normal_byteItems base shown, ListAccessor.create, map_eq_ok]
      refine ⟨_, mapM_eq_ok.mpr ?_, rfl⟩
      rw [List.forall₂_map_left_iff, List.forall₂_map_right_iff, List.forall₂_same]
      refine forall_left each fun item body encoded => ?_
      obtain ⟨b, -, read⟩ := byte_of_encode (isByte base) encoded
      rw [ListAccessor.byteOf_eq_ok, read, Value.byte, UInt8.toUInt8_toUInt64]
  · rw [normal_bytes shown, base, ListAccessor.create, map_eq_ok]
    refine ⟨bs, mapM_eq_ok.mpr ?_, rfl⟩
    rw [List.map_map, List.forall₂_map_left_iff, List.forall₂_same]
    intro b mem
    exact ListAccessor.byteOf_eq_ok.mpr (normal_of_isNormal (isNormal_byte (isByte base) b))

/-- The encoding of a value is read as its normal form. -/
theorem decode_of_encode (lawful : f.Lawful) (countable : f.Countable)
    (identity : f.AllLinks Rebuild.Identity) (h : f.encode v = .ok bytes) :
    f.decode bytes = .ok (f.normal v) := by
  induction f generalizing v bytes with
  | basic head a =>
    obtain ⟨w, shown, encoded⟩ := encode_basic_eq_ok.mp h
    refine decode_basic_eq_ok.mpr ⟨BasicForm.length_of_encode encoded, a.base.normal w, ?_, ?_⟩
    · exact BasicForm.decode_of_encode encoded
    · rw [normal_basic shown, Handler.finish_eq identity.here]
  | list head a regime element ih =>
    obtain ⟨w, items, bodies, shown, hitems, admits, each, written⟩ := encode_list_eq_ok.mp h
    have mem : element ∈ (list head a regime element).parts := List.mem_cons_self
    have below := lawful.inside element mem
    have fits := fits_of_each (each.imp fun _ _ encoded => length_of_encode below encoded)
    -- A list whose elements have no bytes would be read as empty.
    have counted : element.fixedSize = some 0 → regime.isVector := by
      intro none
      cases regime with
      | vector length => rfl
      | list limit => exact absurd none countable.here
    rw [each.length_eq] at admits
    refine decode_list_eq_ok.mpr ⟨bodies, items.map element.normal, _, ?_, ?_,
      create_of_encode lawful.here.2 shown hitems each, Handler.finish_eq identity.here⟩
    · exact elementWindows_of_written admits fits counted lawful.here.1 written
    · rw [List.forall₂_map_right_iff]
      exact (each.imp fun item body encoded =>
        ih below (countable.inside element mem) (identity.inside element mem) encoded).flip
  | union head a nullable variants ih =>
    obtain ⟨w, selector, rest, shown, hs, rfl, chosen⟩ := encode_union_eq_ok.mp h
    obtain ⟨body, rfl⟩ := UnionAccessor.selector_eq_ok.mp hs
    rcases chosen with ⟨chosen, rfl⟩ | ⟨f, w, chosen, hbody, encoded⟩
    · refine decode_union_eq_ok.mpr ⟨selector, [], none, rfl, ?_, .inl ⟨chosen, rfl, rfl⟩⟩
      rw [normal_empty chosen shown, Handler.finish_eq identity.here]
      rfl
    · obtain rfl : body = some w := hbody
      have mem := Variant.mem_of_select chosen
      have read := ih f mem (lawful.inside f mem) (countable.inside f mem)
        (identity.inside f mem) encoded
      refine decode_union_eq_ok.mpr ⟨selector, rest, _, rfl, ?_, .inr ⟨f, _, chosen, read, rfl⟩⟩
      rw [normal_body chosen shown, Handler.finish_eq identity.here]
      rfl
  | container head a fields size ih =>
    obtain ⟨w, values, bodies, shown, hvalues, each, written⟩ := encode_container_eq_ok.mp h
    obtain rfl := ContainerAccessor.fieldsOf_eq_ok.mp hvalues
    have read := @windows_of_fields _ head.name _ _ _ (each.imp fun f mem value body encoded =>
      length_of_encode (lawful.inside f mem) encoded) written
    refine decode_container_eq_ok.mpr ⟨bodies, fields.zipWith normal values, read, ?_, ?_⟩
    · exact each.zipWith fun f mem value body encoded =>
        ih f mem (lawful.inside f mem) (countable.inside f mem) (identity.inside f mem) encoded
    · rw [normal_container shown, Handler.finish_eq identity.here]
      rfl

end Format

/-! ### Codecs -/

namespace Codec

variable {catalog : Catalog} {hasher : Hasher} {c c' : Codec} {shape : ShapeId} {f : Format}
  {bytes : Bytes} {v : Value}

/-- Where every link leaves values alone and the elements of lists have bytes, a codec in any state
reads what it wrote as the normal form of the value; a value that has this form is read back. -/
theorem decode_encode_normal (session : Session catalog hasher c)
    (session' : Session catalog hasher c')
    (resolved : catalog.format (catalog.schema.descriptor shape) = .ok f)
    (identity : f.AllLinks Rebuild.Identity) (countable : f.Countable)
    (encoded : ((encode shape v).run c).1 = .ok bytes) :
    ((decode shape bytes).run c').1 = .ok (f.normal v) ∧ f.IsNormal (f.normal v) ∧
      (f.IsNormal v → ((decode shape bytes).run c').1 = .ok v) := by
  have lawful := Catalog.lawful_of_format resolved
  have written : f.encode v = .ok bytes := (encode_eq_ok session resolved).mp encoded
  have read : ((decode shape bytes).run c').1 = .ok (f.normal v) :=
    (decode_eq_ok session' resolved).mpr
      (Format.decode_of_encode lawful countable identity written)
  refine ⟨read, Format.isNormal_normal written, fun normal => ?_⟩
  rw [read, Format.normal_of_isNormal normal]

theorem decode_encode_normal_record :
    let c : Codec := { catalog := { schema := recordSchema .ok } }
    let bytes : Bytes := [2, 0, 6, 0, 0, 0, 1, 0, 3, 0]
    let v : Value := .container [.bigUint 2, .overlay (.zero 32) (some (.list [.bigUint 1, .uint 3]))]
    ((encode 3 v).run c).1 = .ok bytes ∧
      ((decode 3 bytes).run c).1 = .ok (.container [.uint 2, .list [.uint 1, .uint 3]]) := by
  intro c bytes v
  have encoded : ((encode 3 v).run c).1 = .ok bytes :=
    (encode_eq_ok .start (format_record .ok)).mpr (by decide +kernel)
  have normal := decode_encode_normal .start .start (format_record .ok)
    (allLinks_record fun _ => rfl) (countable_record .ok) encoded
  exact ⟨encoded, normal.1⟩

end Codec

end SimpleSerialize
