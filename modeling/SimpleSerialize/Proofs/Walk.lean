/-
One node of a walk.

Writing, reading and hashing a value go down its format in the same way.  What they do at a node is
said here once, in terms of what they do at its parts; nothing further on opens them.  Main
statements, one for each category:

* `Format.encode_basic_eq_ok`, `encode_list_eq_ok`, `encode_union_eq_ok`, `encode_container_eq_ok`;
* `Format.decode_basic_eq_ok`, `decode_list_eq_ok`, `decode_union_eq_ok`,
  `decode_container_eq_ok`;
* `Format.root_basic_eq_ok`, `root_list_eq_ok`, `root_union_eq_ok`, `root_container_eq_ok`, for
  values that have no root of their own.
-/
import SimpleSerialize.Format.Decode
import SimpleSerialize.Format.Root
import SimpleSerialize.Proofs.Layout.Elements
import SimpleSerialize.Proofs.Nodes

namespace SimpleSerialize

/-! ### Selectors -/

namespace Variant

variable {α β : Type} {nullable : Bool} {variants : List α} {selector : UInt32}

/-- The same variant with its body replaced. -/
def map (g : α → β) : Variant α → Variant β
  | empty => empty
  | body a => body (g a)

theorem select_map (g : α → β) :
    select nullable (variants.map g) selector =
      (select nullable variants selector).map (Variant.map g) := by
  rw [select, select, List.getElem?_map, List.getElem?_map]
  split
  · split
    · rfl
    · cases variants[selector.toNat - 1]? <;> rfl
  · cases variants[selector.toNat]? <;> rfl

theorem mem_of_select {a : α} (h : select nullable variants selector = some (.body a)) :
    a ∈ variants := by
  rw [select] at h
  split at h
  · split at h
    · cases h
    · obtain ⟨a', ha, same⟩ := Option.map_eq_some_iff.mp h
      cases same
      exact List.mem_of_getElem? ha
  · obtain ⟨a', ha, same⟩ := Option.map_eq_some_iff.mp h
    cases same
    exact List.mem_of_getElem? ha

end Variant

/-! ### Accessors -/

theorem ListAccessor.items_eq_ok {shape : String} {a : ListAccessor} {v : Value}
    {items : List Value} :
    a.items shape v = .ok items ↔
      v = .list items ∨
        (a = .byteSequence ∧ ∃ bs, v = .bytes bs ∧ items = bs.map fun b => .uint b.toUInt64) := by
  cases a <;> cases v <;> simp [ListAccessor.items, eq_comm]

theorem ListAccessor.byteOf_eq_ok {shape : String} {item : Value} {b : UInt8} :
    byteOf shape item = .ok b ↔ item = .uint b.toUInt64 := by
  constructor
  · intro h
    rw [ListAccessor.byteOf.eq_def] at h
    split at h
    · rename_i n
      split at h
      · rename_i small
        cases h
        have small : n.toNat < 256 := UInt64.lt_iff_toNat_lt.mp small
        refine congrArg Value.uint (UInt64.toNat_inj.mp ?_)
        rw [UInt8.toNat_toUInt64, UInt64.toNat_toUInt8, Nat.mod_eq_of_lt small]
      · cases h
    · cases h
  · rintro rfl
    have small : b.toUInt64 < 256 := by
      rw [UInt64.lt_iff_toNat_lt, UInt8.toNat_toUInt64]
      exact b.toNat_lt
    rw [ListAccessor.byteOf, if_pos small, UInt8.toUInt8_toUInt64]

theorem UnionAccessor.selector_eq_ok {shape : String} {a : UnionAccessor} {v : Value}
    {selector : UInt32} :
    a.selector shape v = .ok selector ↔ ∃ body, v = .union selector body := by
  cases v <;> simp [UnionAccessor.selector]

theorem ContainerAccessor.fieldsOf_eq_ok {shape : String} {a : ContainerAccessor} {v : Value}
    {values : List Value} : a.fieldsOf shape v = .ok values ↔ v = .container values := by
  cases v <;> simp [fieldsOf]

theorem Layout.length_of_windows {shape : String} {sizes : List (Option Nat)} {bytes : Bytes}
    {found : List Bytes} (h : Layout.windows shape sizes bytes = .ok found) :
    sizes.length = found.length := by
  obtain ⟨parts, rfl, rfl, -, -⟩ := Layout.written_of_windows h
  rw [List.length_map, List.length_map]

namespace Format

open Layout

variable {head : Heading} {regime : Regime} {element : Format} {nullable : Bool}
  {variants fields : List Format} {size : Option Nat} {v : Value} {bytes : Bytes}

theorem length_selectorBytes (selector : UInt32) : (selectorBytes selector).length = offsetSize :=
  LittleEndian.length_encode _ _

/-- A selector is read back from the bytes it is written as. -/
theorem ofNat_readOffset_selectorBytes (selector : UInt32) (rest : Bytes) :
    UInt32.ofNat (readOffset (selectorBytes selector ++ rest)) = selector := by
  have small : selector.toNat ≤ maxOffset := by
    have := selector.toNat_lt
    rw [maxOffset]
    omega
  rw [selectorBytes, readOffset_encode small, UInt32.ofNat_toNat]

/-- Bytes that are long enough start with a selector. -/
theorem selectorBytes_ofNat_readOffset (enough : offsetSize ≤ bytes.length) :
    selectorBytes (UInt32.ofNat (readOffset bytes)) ++ bytes.drop offsetSize = bytes := by
  have small := readOffset_le bytes
  have same : (UInt32.ofNat (readOffset bytes)).toNat = readOffset bytes := by
    rw [maxOffset] at small
    rw [UInt32.toNat_ofNat', Nat.mod_eq_of_lt (by omega)]
  rw [selectorBytes, same, encode_readOffset enough, List.take_append_drop]

-- This makes the equations of the three walks once, before the proofs of all categories ask for
-- them at the same time.
attribute [local simp] encode decode root

/-! ### Writing -/

theorem seen_eq_ok {shape : String} {w : Value} : seen shape v = .ok w ↔ v.concrete = some w := by
  rw [seen]
  split <;> simp_all

theorem checkArity_eq_ok {shape : String} {declared found : Nat} {done : Unit} :
    checkArity shape declared found = .ok done ↔ declared = found := by
  rw [checkArity]
  split <;> simp_all [eq_comm]

theorem bodyOf_eq_ok {shape : String} {body : Option Value} {w : Value} :
    bodyOf shape body = .ok w ↔ body = some w := by
  cases body <;> simp [bodyOf]

theorem encode_basic_eq_ok {a : Handler BasicForm} :
    (basic head a).encode v = .ok bytes ↔ ∃ w, v.concrete = some w ∧ a.encode w = .ok bytes := by
  simp only [encode, bind_eq_ok, seen_eq_ok]

/-- The children of a composite are known if all its parts can be written. -/
theorem children_eq_iff {α : Type} {size : α → Option Nat} {write : α → Except EncodeError Bytes}
    {as : List α} {parts : List Part} :
    (as.map fun a => (size a, write a)) = parts.map Part.child ↔
      ∃ bodies, parts = (as.map size).zip bodies ∧
        List.Forall₂ (fun a body => write a = .ok body) as bodies := by
  induction as generalizing parts with
  | nil =>
    constructor
    · intro h
      obtain rfl : parts = [] := List.map_eq_nil_iff.mp h.symm
      exact ⟨[], rfl, .nil⟩
    · rintro ⟨bodies, rfl, -⟩
      rfl
  | cons a as ih =>
    constructor
    · intro h
      cases parts with
      | nil => cases h
      | cons p parts =>
        obtain ⟨hp, rest⟩ := List.cons_eq_cons.mp h
        obtain ⟨bodies, rfl, each⟩ := ih.mp rest
        obtain ⟨sizeEq, bodyEq⟩ := Prod.ext_iff.mp hp
        refine ⟨p.2 :: bodies, ?_, .cons bodyEq each⟩
        exact congrArg (· :: _) (Prod.ext sizeEq.symm rfl)
    · rintro ⟨bodies, rfl, each⟩
      cases each with
      | cons head tail =>
        exact List.cons_eq_cons.mpr ⟨Prod.ext rfl head, ih.mpr ⟨_, rfl, tail⟩⟩

theorem elements_eq_children {items : List Value} {parts : List Part} :
    (items.map fun item => (size, element.encode item)) = parts.map Part.child ↔
      ∃ bodies, parts = elementParts size bodies ∧
        List.Forall₂ (fun item body => element.encode item = .ok body) items bodies := by
  refine children_eq_iff.trans (exists_congr fun bodies => and_congr_left fun each => ?_)
  have same : (items.map fun _ => size).zip bodies = elementParts size bodies := by
    rw [elementParts, List.map_prod_right_eq_zip, List.map_const', List.map_const', each.length_eq]
  rw [same]

theorem encode_list_eq_ok {a : Handler ListAccessor} :
    (list head a regime element).encode v = .ok bytes ↔
      ∃ w items bodies, v.concrete = some w ∧ a.items w = .ok items ∧
        regime.Admits items.length ∧
        List.Forall₂ (fun item body => element.encode item = .ok body) items bodies ∧
        Written (elementParts element.fixedSize bodies) bytes := by
  simp only [encode, bind_eq_ok, seen_eq_ok, Regime.check_eq_ok, compose_eq_ok,
    elements_eq_children]
  constructor
  · rintro ⟨w, hw, items, hitems, -, admits, _, ⟨bodies, rfl, each⟩, written⟩
    exact ⟨w, items, bodies, hw, hitems, admits, each, written⟩
  · rintro ⟨w, items, bodies, hw, hitems, admits, each, written⟩
    exact ⟨w, hw, items, hitems, (), admits, _, ⟨bodies, rfl, each⟩, written⟩

theorem encode_union_eq_ok {a : Handler UnionAccessor} :
    (union head a nullable variants).encode v = .ok bytes ↔
      ∃ w selector rest, v.concrete = some w ∧ a.selector w = .ok selector ∧
        bytes = selectorBytes selector ++ rest ∧
        ((Variant.select nullable variants selector = some .empty ∧ rest = []) ∨
          ∃ f body, Variant.select nullable variants selector = some (.body f) ∧
            a.body? w = some body ∧ f.encode body = .ok rest) := by
  simp only [encode, bind_eq_ok, seen_eq_ok, encoders_eq, Variant.select_map]
  constructor
  · rintro ⟨w, hw, selector, hs, h⟩
    cases chosen : Variant.select nullable variants selector with
    | none =>
      rw [chosen] at h
      cases h
    | some variant =>
      rw [chosen] at h
      cases variant with
      | empty =>
        refine ⟨w, selector, [], hw, hs, ?_, .inl ⟨chosen, rfl⟩⟩
        rw [List.append_nil]
        exact (pure_eq_ok.mp h).symm
      | body f =>
        simp only [Option.map_some, Variant.map, bind_eq_ok, bodyOf_eq_ok, pure_eq_ok] at h
        obtain ⟨body, hbody, rest, hrest, rfl⟩ := h
        exact ⟨w, selector, rest, hw, hs, rfl, .inr ⟨f, body, chosen, hbody, hrest⟩⟩
  · rintro ⟨w, selector, rest, hw, hs, rfl, ⟨chosen, rfl⟩ | ⟨f, body, chosen, hbody, hrest⟩⟩
    · refine ⟨w, hw, selector, hs, ?_⟩
      rw [chosen, List.append_nil]
      rfl
    · refine ⟨w, hw, selector, hs, ?_⟩
      rw [chosen]
      simp only [Option.map_some, Variant.map, bind_eq_ok, bodyOf_eq_ok, pure_eq_ok]
      exact ⟨body, hbody, rest, hrest, rfl⟩

/-- The children of a container are its fields with their values. -/
theorem fieldChildren_eq {α : Type} (step : Format → Value → α) (values : List Value) :
    (fields.map fixedSize).zip
        ((fields.map step).zipWith (fun stepField field => stepField field) values) =
      (fields.zip values).map fun p => (p.1.fixedSize, step p.1 p.2) := by
  induction fields generalizing values with
  | nil => rfl
  | cons f fields ih =>
    cases values with
    | nil => rfl
    | cons value values => exact congrArg _ (ih values)

theorem fields_eq_children {values : List Value} {parts : List Part}
    (arity : fields.length = values.length) :
    (fields.map fixedSize).zip
        ((fields.map encode).zipWith (fun encodeField field => encodeField field) values) =
      parts.map Part.child ↔
      ∃ bodies, parts = (fields.map fixedSize).zip bodies ∧
        Aligned (fun f value body => f.encode value = .ok body) fields values bodies := by
  have sizes : (fields.zip values).map (fun p => p.1.fixedSize) = fields.map fixedSize := by
    calc (fields.zip values).map (fun p => p.1.fixedSize)
      _ = ((fields.zip values).map Prod.fst).map fixedSize := (List.map_map ..).symm
      _ = fields.map fixedSize := by rw [List.map_fst_zip (Nat.le_of_eq arity)]
  rw [fieldChildren_eq, children_eq_iff, sizes]
  simp only [aligned_iff_zip arity]

theorem encode_container_eq_ok {a : Handler ContainerAccessor} :
    (container head a fields size).encode v = .ok bytes ↔
      ∃ w values bodies, v.concrete = some w ∧ a.fields w = .ok values ∧
        Aligned (fun f value body => f.encode value = .ok body) fields values bodies ∧
        Written ((fields.map fixedSize).zip bodies) bytes := by
  simp only [encode, bind_eq_ok, seen_eq_ok, checkArity_eq_ok, encoders_eq, compose_eq_ok]
  constructor
  · rintro ⟨w, hw, values, hvalues, -, arity, parts, h, written⟩
    obtain ⟨bodies, rfl, each⟩ := (fields_eq_children arity).mp h
    exact ⟨w, values, bodies, hw, hvalues, each, written⟩
  · rintro ⟨w, values, bodies, hw, hvalues, each, written⟩
    have arity := each.length_left
    exact ⟨w, hw, values, hvalues, (), arity, _,
      (fields_eq_children arity).mpr ⟨bodies, rfl, each⟩, written⟩

/-! ### Reading -/

theorem checkSize_eq_ok {shape : String} {size actual : Nat} {done : Unit} :
    checkSize shape size actual = .ok done ↔ actual = size := by
  rw [checkSize]
  split
  · simp
    omega
  · split
    · simp
      omega
    · simp
      omega

theorem decode_basic_eq_ok {a : Handler BasicForm} :
    (basic head a).decode bytes = .ok v ↔
      bytes.length = a.base.size ∧
        ∃ w, a.base.decode a.shape bytes = .ok w ∧ a.finish w = .ok v := by
  simp only [decode, bind_eq_ok, checkSize_eq_ok, Handler.decode]
  exact ⟨fun ⟨_, h⟩ => h, fun h => ⟨(), h⟩⟩

theorem decode_list_eq_ok {a : Handler ListAccessor} :
    (list head a regime element).decode bytes = .ok v ↔
      ∃ windows items w,
        elementWindows head.name regime element.fixedSize bytes = .ok windows ∧
        List.Forall₂ (fun window item => element.decode window = .ok item) windows items ∧
        a.base.create a.shape items = .ok w ∧ a.finish w = .ok v := by
  simp only [decode, bind_eq_ok, mapM_eq_ok, Handler.createList]
  constructor
  · rintro ⟨windows, hwindows, items, hitems, w, hw, hv⟩
    exact ⟨windows, items, w, hwindows, hitems, hw, hv⟩
  · rintro ⟨windows, items, w, hwindows, hitems, hw, hv⟩
    exact ⟨windows, hwindows, items, hitems, w, hw, hv⟩

theorem decode_union_eq_ok {a : Handler UnionAccessor} :
    (union head a nullable variants).decode bytes = .ok v ↔
      ∃ selector rest body, bytes = selectorBytes selector ++ rest ∧
        a.finish (a.base.create selector body) = .ok v ∧
        ((Variant.select nullable variants selector = some .empty ∧ rest = [] ∧ body = none) ∨
          ∃ f w, Variant.select nullable variants selector = some (.body f) ∧
            f.decode rest = .ok w ∧ body = some w) := by
  simp only [decode, decoders_eq, Variant.select_map, Handler.createUnion]
  constructor
  · intro h
    split at h
    · cases h
    rename_i enough
    -- From here on the buffer is a selector and the bytes after it.
    have split := (selectorBytes_ofNat_readOffset (Nat.le_of_not_lt enough)).symm
    generalize UInt32.ofNat (readOffset bytes) = selector at h split
    generalize bytes.drop offsetSize = rest at h split
    cases chosen : Variant.select nullable variants selector with
    | none =>
      rw [chosen] at h
      cases h
    | some variant =>
      rw [chosen] at h
      cases variant with
      | empty =>
        simp only [Option.map_some, Variant.map] at h
        cases rest with
        | nil => exact ⟨selector, [], none, split, h, .inl ⟨chosen, rfl, rfl⟩⟩
        | cons b rest => cases h
      | body f =>
        simp only [Option.map_some, Variant.map, bind_eq_ok] at h
        obtain ⟨w, hw, done⟩ := h
        exact ⟨selector, rest, some w, split, done, .inr ⟨f, w, chosen, hw, rfl⟩⟩
  · rintro ⟨selector, rest, body, rfl, done, h⟩
    have enough : ¬ (selectorBytes selector ++ rest).length < offsetSize := by
      rw [List.length_append, length_selectorBytes]
      omega
    rw [if_neg enough, ofNat_readOffset_selectorBytes,
      List.drop_left' (length_selectorBytes selector)]
    rcases h with ⟨chosen, rfl, rfl⟩ | ⟨f, w, chosen, hw, rfl⟩
    · rw [chosen]
      exact done
    · rw [chosen]
      simp only [Option.map_some, Variant.map, bind_eq_ok]
      exact ⟨w, hw, done⟩

theorem decode_container_eq_ok {a : Handler ContainerAccessor} :
    (container head a fields size).decode bytes = .ok v ↔
      ∃ windows values, Layout.windows head.name (fields.map fixedSize) bytes = .ok windows ∧
        Aligned (fun f window value => f.decode window = .ok value) fields windows values ∧
        a.finish (a.base.create values) = .ok v := by
  simp only [decode, decoders_eq, bind_eq_ok, Handler.createContainer]
  refine exists_congr fun windows => ?_
  constructor
  · rintro ⟨hwindows, values, hvalues, done⟩
    -- There is a window for each field, so that none is left out when they are paired up.
    have arity := length_of_windows hwindows
    rw [List.length_map] at arity
    exact ⟨values, hwindows, (zip_mapM_eq_ok arity).mp hvalues, done⟩
  · rintro ⟨values, hwindows, each, done⟩
    exact ⟨hwindows, values, (zip_mapM_eq_ok each.length_left).mpr each, done⟩

/-! ### Hashing -/

variable {hasher : Hasher} {r : Root}

theorem concrete_of_root? (bare : v.root? = none) : v.concrete = some v := by
  cases v with
  | overlay root kept => cases bare
  | _ => simp [Value.concrete]

theorem root_basic_eq_ok {a : Handler BasicForm} (bare : v.root? = none) :
    (basic head a).root hasher v = .ok r ↔
      ∃ bytes, a.encode v = .ok bytes ∧ r = hasher.merkleize (pack bytes) none := by
  simp only [root, bare, bind_eq_ok, pure_eq_ok]
  exact exists_congr fun _ => and_congr_right fun _ => eq_comm

/-- The root of the elements of a sequence, whose number is not mixed in yet. -/
def ElementsRoot (hasher : Hasher) (regime : Regime) (element : Format) (items : List Value)
    (tree : Root) : Prop :=
  if element.packable then
    ∃ pieces, List.Forall₂ (fun item piece => element.encode item = .ok piece) items pieces ∧
      tree = hasher.merkleize (pack pieces.flatten)
        ((regime.limit?.map (·.toNat)).map (chunkLimit element.slotSize))
  else
    ∃ roots, List.Forall₂ (fun item r => element.root hasher item = .ok r) items roots ∧
      tree = hasher.merkleize roots (regime.limit?.map (·.toNat))

theorem root_list_eq_ok {a : Handler ListAccessor} (bare : v.root? = none) :
    (list head a regime element).root hasher v = .ok r ↔
      ∃ items tree, a.items v = .ok items ∧ regime.Admits items.length ∧
        ElementsRoot hasher regime element items tree ∧
        r = finishSequence hasher regime items.length tree := by
  simp only [root, bare, bind_eq_ok, Regime.check_eq_ok, ElementsRoot]
  refine exists_congr fun items => ?_
  split
  · simp only [bind_eq_ok, mapM_eq_ok, pure_eq_ok]
    constructor
    · rintro ⟨hitems, -, admits, pieces, each, _, rfl, rfl⟩
      exact ⟨_, hitems, admits, ⟨pieces, each, rfl⟩, rfl⟩
    · rintro ⟨_, hitems, admits, ⟨pieces, each, rfl⟩, rfl⟩
      exact ⟨hitems, (), admits, pieces, each, _, rfl, rfl⟩
  · simp only [bind_eq_ok, mapM_eq_ok, pure_eq_ok]
    constructor
    · rintro ⟨hitems, -, admits, roots, each, _, rfl, rfl⟩
      exact ⟨_, hitems, admits, ⟨roots, each, rfl⟩, rfl⟩
    · rintro ⟨_, hitems, admits, ⟨roots, each, rfl⟩, rfl⟩
      exact ⟨hitems, (), admits, roots, each, _, rfl, rfl⟩

theorem root_union_eq_ok {a : Handler UnionAccessor} (bare : v.root? = none) :
    (union head a nullable variants).root hasher v = .ok r ↔
      ∃ selector below, a.selector v = .ok selector ∧
        r = hasher.mixInSelector below selector ∧
        ((Variant.select nullable variants selector = some .empty ∧ below = .zero 32) ∨
          ∃ f body, Variant.select nullable variants selector = some (.body f) ∧
            a.body? v = some body ∧ f.root hasher body = .ok below) := by
  simp only [root, bare, bind_eq_ok, rooters_eq, Variant.select_map]
  refine exists_congr fun selector => ?_
  cases chosen : Variant.select nullable variants selector with
  | none => simp
  | some variant =>
    cases variant with
    | empty =>
      simp only [Option.map_some, Variant.map, pure_eq_ok]
      constructor
      · rintro ⟨hs, rfl⟩
        exact ⟨.zero 32, hs, rfl, .inl ⟨trivial, rfl⟩⟩
      · rintro ⟨below, hs, rfl, ⟨-, rfl⟩ | ⟨f, body, h, -⟩⟩
        · exact ⟨hs, rfl⟩
        · cases h
    | body f =>
      simp only [Option.map_some, Variant.map, bind_eq_ok, bodyOf_eq_ok, pure_eq_ok]
      constructor
      · rintro ⟨hs, body, hbody, below, hbelow, rfl⟩
        exact ⟨below, hs, rfl, .inr ⟨f, body, rfl, hbody, hbelow⟩⟩
      · rintro ⟨below, hs, rfl, ⟨h, -⟩ | ⟨f, body, h, hbody, hbelow⟩⟩
        · cases h
        · cases h
          exact ⟨hs, body, hbody, below, hbelow, rfl⟩

theorem root_container_eq_ok {a : Handler ContainerAccessor} (bare : v.root? = none) :
    (container head a fields size).root hasher v = .ok r ↔
      ∃ values roots, a.fields v = .ok values ∧
        Aligned (fun f value r => f.root hasher value = .ok r) fields values roots ∧
        r = hasher.merkleize roots none := by
  simp only [root, bare, bind_eq_ok, seen_eq_ok, checkArity_eq_ok, rooters_eq, pure_eq_ok,
    concrete_of_root? bare, Option.some.injEq, exists_eq_left']
  constructor
  · rintro ⟨values, hvalues, -, arity, roots, hroots, rfl⟩
    exact ⟨values, roots, hvalues, (zip_mapM_eq_ok arity).mp hroots, rfl⟩
  · rintro ⟨values, roots, hvalues, each, rfl⟩
    exact ⟨values, hvalues, (), each.length_left, roots,
      (zip_mapM_eq_ok each.length_left).mpr each, rfl⟩

theorem signingRoot_container_eq_ok {a : Handler ContainerAccessor} :
    (container head a fields size).signingRoot hasher v = .ok r ↔
      ∃ w values roots, v.concrete = some w ∧ a.fields w = .ok values ∧
        fields.length = values.length ∧
        List.Forall₂ (fun (p : Format × Value) r => p.1.root hasher p.2 = .ok r)
          (fields.dropLast.zip values) roots ∧
        r = hasher.merkleize roots none := by
  simp only [signingRoot, bind_eq_ok, seen_eq_ok, checkArity_eq_ok, mapM_eq_ok, pure_eq_ok]
  constructor
  · rintro ⟨w, hw, values, hvalues, -, arity, roots, each, rfl⟩
    exact ⟨w, values, roots, hw, hvalues, arity, each, rfl⟩
  · rintro ⟨w, values, roots, hw, hvalues, arity, each, rfl⟩
    exact ⟨w, hw, values, hvalues, (), arity, roots, each, rfl⟩

end Format

end SimpleSerialize
