/-
What hashing an instance checks.

An instance has the structure of its model already.  What its type leaves open, and hashing has to
check, are the lengths of sequences that are bounded by size variables, and the size of integers of
32 bytes.  `Model.validate` makes these checks, in the order of the walk and under the names of the
shapes that the walk names.  Main statements:

* `Model.validates`: the format of a model hashes exactly the instances that pass the checks, fails
  as the checks do on all others, and the size variables of the model have values;
* `Codec.verdict_rootOfModel`: the same of codecs, whatever they resolved before.
-/
import SimpleSerialize.Proofs.Acceptance
import SimpleSerialize.Proofs.FixedSize
import SimpleSerialize.Proofs.Misplaced
import SimpleSerialize.Proofs.Overlay
import SimpleSerialize.Proofs.SigningRoot

namespace SimpleSerialize

/-! ### Validates one after the other -/

section Verdict

variable {ε ε' α β γ : Type}

theorem verdict_bind (x : Except ε α) (next : α → Except ε β) :
    verdict (x >>= next) = x >>= fun a => verdict (next a) := by
  cases x <;> rfl

theorem verdict_mapError (x : Except ε α) (f : ε → ε') :
    verdict (x.mapError f) = (verdict x).mapError f := by
  cases x <;> rfl

/-- The verdict on a list is that on its items, one after the other. -/
theorem verdict_mapM_map {step : β → Except ε γ} {lower : α → β} {check : α → Except ε Unit}
    (each : ∀ a, verdict (step (lower a)) = check a) (as : List α) :
    verdict ((as.map lower).mapM step) = as.forM check := by
  induction as with
  | nil => rfl
  | cons a as ih =>
    show _ = check a >>= fun _ => as.forM check
    rw [List.map_cons, List.mapM_cons, verdict_bind, ← each a]
    cases step (lower a) with
    | error e => rfl
    | ok b => exact (verdict_bind_pure _).trans ih

end Verdict

namespace Model

/-- Validates the number of elements of a sequence against a size variable, if it has a value. -/
def validateSize (sizes : String → Option UInt64) (regime : UInt64 → Regime) (variableName : String)
    (shape : String) (count : Nat) : Except EncodeError Unit :=
  match sizes variableName with
  | some n => (regime n).check shape count
  | none => .ok ()

/-- Validates that a number has a numeral of 32 bytes. -/
def validateWide (n : Nat) : Except EncodeError Unit :=
  verdict (BasicForm.encodeInteger (shapeName .uint256) 32 n)

mutual

/-- Validates what an instance has to fulfil to be hashed, where its shape goes by some name. -/
def validate (sizes : String → Option UInt64) : (m : Model) → String → m.Instance →
    Except EncodeError Unit
  | .bool, _, _ => .ok ()
  | .uint _, _, _ => .ok ()
  | .uint256, _, n => validateWide n
  | .bytes _, _, _ => .ok ()
  | .list element, _, xs => xs.forM fun x => element.validate sizes element.shapeName x
  | .option _, _, none => .ok ()
  | .option body, _, some x => body.validate sizes body.shapeName x
  | .vector element _, _, xs => xs.items.forM fun x => element.validate sizes element.shapeName x
  | .boundedList element _, _, xs => xs.items.forM fun x => element.validate sizes element.shapeName x
  | .sizedVector element length, name, xs => do
    validateSize sizes .vector length name xs.length
    xs.forM fun x => element.validate sizes element.shapeName x
  | .sizedList element limit, name, xs => do
    validateSize sizes (fun n => .list (some n)) limit name xs.length
    xs.forM fun x => element.validate sizes element.shapeName x
  | .newtype _ inner _, name, x => inner.validate sizes name x
  | .record _ fields, _, xs => validateFields sizes fields xs
  | .choice _ true _, _, none => .ok ()
  | .choice _ true variants, _, some x => validateVariant sizes variants x
  | .choice _ false variants, _, x => validateVariant sizes variants x

def validateFields (sizes : String → Option UInt64) : (fields : ModelFields) →
    RecordInstance fields → Except EncodeError Unit
  | .nil, _ => .ok ()
  | .cons _ model _ rest, (x, xs) => do
    model.validate sizes model.shapeName x
    validateFields sizes rest xs

def validateVariant (sizes : String → Option UInt64) : (variants : ModelVariants) →
    ChoiceInstance variants → Except EncodeError Unit
  | .cons model _, .inl x => model.validate sizes model.shapeName x
  | .cons _ rest, .inr x => validateVariant sizes rest x

end

mutual

/-- The size variables that sequences in the model are bounded by. -/
def sizeNames : Model → List String
  | .list element | .vector element _ | .boundedList element _ => element.sizeNames
  | .sizedVector element name | .sizedList element name => name :: element.sizeNames
  | .option body => body.sizeNames
  | .newtype _ inner _ => inner.sizeNames
  | .record _ fields => fieldSizeNames fields
  | .choice _ _ variants => variantSizeNames variants
  | _ => []

def fieldSizeNames : ModelFields → List String
  | .nil => []
  | .cons _ model _ rest => model.sizeNames ++ fieldSizeNames rest

def variantSizeNames : ModelVariants → List String
  | .nil => []
  | .cons model rest => model.sizeNames ++ variantSizeNames rest

end

/-- A format of some name hashes the instances of a model that pass the checks. -/
structure Validates (sizes : String → Option UInt64) (name : String) (m : Model) (f : Format) :
    Prop where
  known : ∀ variableName ∈ m.sizeNames, ∃ n, sizes variableName = some n
  root : ∀ hasher x, verdict (f.root hasher (m.lower x)) = m.validate sizes name x
  /-- Elements that share chunks are written to be hashed. -/
  packed : f.packable = true → ∀ x, verdict (f.encode (m.lower x)) = m.validate sizes name x

/-- The same of the fields of a record. -/
structure FieldsValidate (sizes : String → Option UInt64) (fields : ModelFields)
    (gs : List Format) : Prop where
  known : ∀ variableName ∈ fieldSizeNames fields, ∃ n, sizes variableName = some n
  arity : ∀ xs, (lowerFields fields xs).length = gs.length
  root : ∀ hasher xs, verdict ((gs.zip (lowerFields fields xs)).mapM fun p => p.1.root hasher p.2) =
    validateFields sizes fields xs

/-- The same of the variants of a choice. -/
structure VariantsValidate (sizes : String → Option UInt64) (variants : ModelVariants)
    (gs : List Format) : Prop where
  known : ∀ variableName ∈ variantSizeNames variants, ∃ n, sizes variableName = some n
  root : ∀ hasher start x, ∃ i g w, gs[i]? = some g ∧ i < variants.length ∧
    lowerVariant variants start x = .union (UInt32.ofNat (start + i)) (some w) ∧
    verdict (g.root hasher w) = validateVariant sizes variants x

variable {sizes : String → Option UInt64} {name : String} {m element : Model} {f g : Format}
  {gs : List Format} {head : Heading} {hasher : Hasher}

/-! ### Basic models -/

section Basic

variable {a : Handler BasicForm}

theorem validates_basic (nameless : m.sizeNames = []) (bare : ∀ x, (m.lower x).root? = none)
    (written : ∀ x, verdict ((Format.basic head a).encode (m.lower x)) = m.validate sizes name x) :
    Validates sizes name m (.basic head a) := by
  refine ⟨?_, fun hasher x => ?_, fun _ => written⟩
  · rw [nameless]
    exact nofun
  · have shown := Format.concrete_of_root? (bare x)
    rw [← written, Format.root, bare x, Format.encode, Format.seen_eq_ok.mpr shown, ok_bind]
    exact verdict_bind_pure _

theorem validates_bool (form : a.base = .bool) : Validates sizes name .bool (.basic head a) := by
  refine validates_basic rfl (fun _ => rfl) fun (x : Bool) => ?_
  show verdict (a.base.encode a.shape (.bool x)) = .ok ()
  rw [form]
  rfl

theorem validates_uint {size : WordSize} (form : a.base = .uint size.bytes) :
    Validates sizes name (.uint size) (.basic head a) := by
  refine validates_basic rfl (fun x => by cases size <;> rfl) fun (x : Fin _) => ?_
  show verdict ((Format.basic head a).encode (lowerWord size x)) = .ok ()
  rw [encode_lowerWord form, BasicForm.encodeInteger, if_pos x.isLt]
  rfl

theorem validates_uint256 (form : a.base = .uint 32) (shape : a.shape = shapeName .uint256) :
    Validates sizes name .uint256 (.basic head a) := by
  refine validates_basic rfl (fun _ => rfl) fun (x : Nat) => ?_
  show verdict ((Format.basic head a).encode (.bigUint x)) = _
  rw [encode_number form, shape]
  rfl

theorem validates_bytes {length : UInt32} (form : a.base = .bytes length.toNat) :
    Validates sizes name (.bytes length) (.basic head a) := by
  refine validates_basic rfl (fun _ => rfl) fun (x : FixedBytes _) => ?_
  show verdict (a.base.encode a.shape (.bytes x.bytes)) = .ok ()
  rw [form]
  show verdict (if x.bytes.length = length.toNat then Except.ok x.bytes else _) = .ok ()
  rw [if_pos x.length_eq]
  rfl

end Basic

/-! ### Sequences -/

section Sequence

variable {a : Handler ListAccessor} {regime : Regime}

/-- A sequence is hashed if it has the right number of elements and each of them is hashed. -/
theorem Validates.verdict_root_items (inner : Validates sizes element.shapeName element g)
    (hasher : Hasher) (xs : List element.Instance) :
    verdict ((Format.list head a regime g).root hasher (.list (xs.map fun x => element.lower x))) =
      regime.check head.name xs.length >>= fun _ =>
        xs.forM fun x => element.validate sizes element.shapeName x := by
  simp only [Format.root, Value.root?, Format.items_list, ok_bind, List.length_map, verdict_bind]
  congr 1
  funext _
  split
  · rename_i shared
    rw [← verdict_mapM_map (inner.packed shared)]
    exact verdict_bind_pure _
  · rw [← verdict_mapM_map (inner.root hasher)]
    exact verdict_bind_pure _

theorem validates_list (inner : Validates sizes element.shapeName element g) :
    Validates sizes name (.list element) (.list head a (.list none) g) :=
  ⟨inner.known, fun hasher xs => inner.verdict_root_items hasher xs, nofun⟩

theorem validates_vector {length : UInt64} (inner : Validates sizes element.shapeName element g) :
    Validates sizes name (.vector element length) (.list head a (.vector length) g) := by
  refine ⟨inner.known, fun hasher (xs : Exactly _ _) => ?_, nofun⟩
  refine (inner.verdict_root_items hasher xs.items).trans ?_
  rw [Regime.check, if_pos xs.length_eq]
  rfl

theorem validates_boundedList {limit : UInt64}
    (inner : Validates sizes element.shapeName element g) :
    Validates sizes name (.boundedList element limit) (.list head a (.list (some limit)) g) := by
  refine ⟨inner.known, fun hasher (xs : UpTo _ _) => ?_, nofun⟩
  refine (inner.verdict_root_items hasher xs.items).trans ?_
  rw [Regime.check, if_pos xs.length_le]
  rfl

theorem validates_sizedVector {length : String} {n : UInt64} (known : sizes length = some n)
    (inner : Validates sizes element.shapeName element g) :
    Validates sizes head.name (.sizedVector element length) (.list head a (.vector n) g) := by
  refine ⟨List.forall_mem_cons.mpr ⟨⟨n, known⟩, inner.known⟩, fun hasher (xs : List _) => ?_, nofun⟩
  show _ = validateSize sizes .vector length head.name xs.length >>= _
  rw [validateSize, known]
  exact inner.verdict_root_items hasher xs

theorem validates_sizedList {limit : String} {n : UInt64} (known : sizes limit = some n)
    (inner : Validates sizes element.shapeName element g) :
    Validates sizes head.name (.sizedList element limit) (.list head a (.list (some n)) g) := by
  refine ⟨List.forall_mem_cons.mpr ⟨⟨n, known⟩, inner.known⟩, fun hasher (xs : List _) => ?_, nofun⟩
  show _ = validateSize sizes (fun n => .list (some n)) limit head.name xs.length >>= _
  rw [validateSize, known]
  exact inner.verdict_root_items hasher xs

end Sequence

/-! ### Unions -/

section Union

variable {a : Handler UnionAccessor} {nullable : Bool} {variants : ModelVariants}

theorem verdict_root_body {selector : UInt32} {w : Value}
    (chosen : Variant.select nullable gs selector = some (.body g)) :
    verdict ((Format.union head a nullable gs).root hasher (.union selector (some w))) =
      verdict (g.root hasher w) := by
  have held : a.selector (.union selector (some w)) = .ok selector :=
    UnionAccessor.selector_eq_ok.mpr ⟨_, rfl⟩
  have body : Format.bodyOf head.name (a.body? (.union selector (some w))) = .ok w :=
    Format.bodyOf_eq_ok.mpr rfl
  simp only [Format.root, Value.root?, held, ok_bind, Format.rooters_eq, Variant.select_map, chosen,
    Option.map_some, Variant.map, body]
  exact verdict_bind_pure _

theorem validates_option (inner : Validates sizes element.shapeName element g) :
    Validates sizes name (.option element) (.union head a true [g]) := by
  refine ⟨inner.known, fun hasher (x : Option element.Instance) => ?_, nofun⟩
  cases x with
  | none => rfl
  | some x => exact (verdict_root_body rfl).trans (inner.root hasher x)

/-- The body of a choice is hashed under its selector, if there are few enough variants for their
selectors to differ. -/
theorem VariantsValidate.verdict_root (each : VariantsValidate sizes variants gs)
    (few : variants.length < 2 ^ 32) (hasher : Hasher) (x : ChoiceInstance variants) :
    verdict ((Format.union head a nullable gs).root hasher (lowerVariant variants nullable.toNat x)) =
      validateVariant sizes variants x := by
  obtain ⟨i, g, w, here, inside, lowered, checked⟩ := each.root hasher nullable.toNat x
  have place : (UInt32.ofNat (nullable.toNat + i)).toNat = nullable.toNat + i := by
    have one := nullable.toNat_le
    exact UInt32.toNat_ofNat_of_lt' (by simp only [UInt32.size]; omega)
  rw [lowered, ← checked]
  exact verdict_root_body (Variant.select_eq_body.mpr ⟨i, place, here⟩)

theorem validates_choice {choiceName : String} (few : variants.length < 2 ^ 32)
    (each : VariantsValidate sizes variants gs) :
    Validates sizes name (.choice choiceName nullable variants) (.union head a nullable gs) := by
  refine ⟨each.known, fun hasher x => ?_, nofun⟩
  cases nullable with
  | false => exact each.verdict_root few hasher x
  | true =>
    change Option (ChoiceInstance variants) at x
    cases x with
    | none => rfl
    | some x => exact each.verdict_root few hasher x

theorem variantsValidate_nil : VariantsValidate sizes .nil [] :=
  ⟨nofun, fun _ _ x => nomatch x⟩

theorem variantsValidate_cons (first : Validates sizes element.shapeName element g)
    (rest : VariantsValidate sizes variants gs) :
    VariantsValidate sizes (.cons element variants) (g :: gs) := by
  refine ⟨List.forall_mem_append.mpr ⟨first.known, rest.known⟩, fun hasher start x => ?_⟩
  change element.Instance ⊕ ChoiceInstance variants at x
  cases x with
  | inl x => exact ⟨0, g, element.lower x, rfl, Nat.succ_pos _, rfl, first.root hasher x⟩
  | inr x =>
    -- The other variants count from the next selector.
    obtain ⟨i, g', w, here, inside, lowered, checked⟩ := rest.root hasher (start + 1) x
    rw [Nat.add_right_comm] at lowered
    exact ⟨i + 1, g', w, here, Nat.succ_lt_succ inside, lowered, checked⟩

end Union

/-! ### Records -/

section Record

variable {a : Handler ContainerAccessor} {fields : ModelFields} {size : Option Nat}

theorem validates_record {recordName : String} (each : FieldsValidate sizes fields gs) :
    Validates sizes name (.record recordName fields) (.container head a gs size) := by
  refine ⟨each.known, fun hasher (xs : RecordInstance fields) => ?_, nofun⟩
  show verdict ((Format.container head a gs size).root hasher
    (.container (lowerFields fields xs))) = _
  rw [Format.root_container (each.arity xs), verdict_bind_pure]
  exact each.root hasher xs

theorem fieldsValidate_nil : FieldsValidate sizes .nil [] :=
  ⟨nofun, fun _ => rfl, fun _ _ => rfl⟩

theorem fieldsValidate_cons {field : String} {hint : Option String}
    (first : Validates sizes element.shapeName element g) (rest : FieldsValidate sizes fields gs) :
    FieldsValidate sizes (.cons field element hint fields) (g :: gs) := by
  refine ⟨List.forall_mem_append.mpr ⟨first.known, rest.known⟩,
    fun (x, xs) => congrArg Nat.succ (rest.arity xs), fun hasher (x, xs) => ?_⟩
  show verdict (((g, element.lower x) :: gs.zip (lowerFields fields xs)).mapM _) =
    element.validate sizes element.shapeName x >>= fun _ => validateFields sizes fields xs
  rw [List.mapM_cons, verdict_bind, ← first.root hasher x, ← rest.root hasher xs]
  cases g.root hasher (element.lower x) with
  | error e => rfl
  | ok r => exact verdict_bind_pure _

end Record

/-! ### Every model -/

variable {c : Catalog} {id user : ShapeId} {field hint : Option String} {bound : Nat}

theorem DeclaredIn.name_eq {s : Schema} (declared : m.DeclaredIn s id) :
    s.name id = m.shapeName := by
  obtain ⟨d, row⟩ := declared.row
  exact row.name_eq

theorem Validates.named {s : Schema} (valid : Validates sizes (s.name id) m f)
    (declared : m.DeclaredIn s id) : Validates sizes m.shapeName m f :=
  declared.name_eq ▸ valid

/-- A size variable that a sequence takes its bound from has a value. -/
theorem sizes_of_extent {shape variableName : String} {n : UInt64}
    (h : c.extent shape (.named variableName) = .ok n) : c.sizes variableName = some n := by
  simp only [Catalog.extent, SizeVars.require] at h
  split at h
  · rename_i m known
    cases h
    exact known
  · cases h

/-- A basic shape reports errors by its own name, also inside a subclass. -/
theorem shape_of_row (wf : c.schema.WellFormed) {kind : BasicKind}
    (row : c.schema.Row id name (.basic kind)) (same : c.schema.SameTarget user id)
    {a : Handler BasicForm}
    (h : c.formatBelow bound (c.schema.use user field hint) = .ok (.basic head a)) :
    a.shape = name := by
  obtain ⟨links, travels⟩ := same.travels (row.declaration_eq nofun) nofun
  exact (Catalog.handler_of_format wf travels h).1.trans row.name_eq

mutual

/-- The format of a shape that travels as the shape of a model hashes the instances that pass the
checks. -/
theorem validates (wf : c.schema.WellFormed) :
    ∀ (m : Model) {id user : ShapeId} {field hint : Option String} {bound : Nat} {f : Format},
      m.Narrow → m.DeclaredIn c.schema id → c.schema.SameTarget user id →
      c.formatBelow bound (c.schema.use user field hint) = .ok f →
      Validates c.sizes (c.schema.name user) m f
  | .bool, _, _, _, _, _, _, _, row, same, h => by
    obtain ⟨head, a, rfl, form⟩ := basic_of_row wf row same h
    exact validates_bool form
  | .uint size, _, _, _, _, _, _, _, row, same, h => by
    obtain ⟨head, a, rfl, form⟩ := basic_of_row wf row same h
    refine validates_uint (form.trans ?_)
    cases size <;> rfl
  | .uint256, _, _, _, _, _, _, _, row, same, h => by
    obtain ⟨head, a, rfl, form⟩ := basic_of_row wf row same h
    exact validates_uint256 form (shape_of_row wf row same h)
  | .bytes length, _, _, _, _, _, _, _, row, same, h => by
    obtain ⟨head, a, rfl, form⟩ := basic_of_row wf row same h
    exact validates_bytes form
  | .list element, _, _, _, _, _, _, narrow, ⟨e, inside, row⟩, same, h => by
    obtain ⟨below, name, head, a, regime, g, rfl, hregime, found⟩ := list_of_row wf row same h
    cases hregime
    have inner := validates wf element narrow inside (inside.sameTarget wf) found
    exact validates_list (inner.named inside)
  | .option body, _, _, _, _, _, _, narrow, ⟨e, inside, row⟩, same, h => by
    obtain ⟨below, head, a, gs, rfl, each⟩ := union_of_row wf row same h
    cases each with
    | cons found rest =>
      cases rest
      have inner := validates wf body narrow inside (inside.sameTarget wf) found
      exact validates_option (inner.named inside)
  | .vector element length, _, _, _, _, _, _, narrow, ⟨e, inside, row⟩, same, h => by
    obtain ⟨below, name, head, a, regime, g, rfl, hregime, found⟩ := list_of_row wf row same h
    obtain ⟨_, same, rfl⟩ := Catalog.vector_of_regime hregime
    cases same
    have inner := validates wf element narrow inside (inside.sameTarget wf) found
    exact validates_vector (inner.named inside)
  | .boundedList element limit, _, _, _, _, _, _, narrow, ⟨e, inside, row⟩, same, h => by
    obtain ⟨below, name, head, a, regime, g, rfl, hregime, found⟩ := list_of_row wf row same h
    cases hregime
    have inner := validates wf element narrow inside (inside.sameTarget wf) found
    exact validates_boundedList (inner.named inside)
  | .sizedVector element length, _, _, _, _, _, _, narrow, ⟨e, inside, row⟩, same, h => by
    have named := Catalog.name_of_formatBelow h
    rw [Schema.shape_use] at named
    obtain ⟨below, name, head, a, regime, g, rfl, hregime, found⟩ := list_of_row wf row same h
    obtain ⟨n, known, rfl⟩ := Catalog.vector_of_regime hregime
    rw [← named]
    have inner := validates wf element narrow inside (inside.sameTarget wf) found
    exact validates_sizedVector (sizes_of_extent known) (inner.named inside)
  | .sizedList element limit, _, _, _, _, _, _, narrow, ⟨e, inside, row⟩, same, h => by
    have named := Catalog.name_of_formatBelow h
    rw [Schema.shape_use] at named
    obtain ⟨below, name, head, a, regime, g, rfl, hregime, found⟩ := list_of_row wf row same h
    obtain ⟨n, known, bounded⟩ := bind_eq_ok.mp hregime
    cases bounded
    rw [← named]
    have inner := validates wf element narrow inside (inside.sameTarget wf) found
    exact validates_sizedList (sizes_of_extent known) (inner.named inside)
  | .newtype name inner check, _, _, _, _, _, _, narrow, ⟨e, inside, row⟩, same, h => by
    -- The walk goes by the name of the newtype, and otherwise by what it wraps.
    obtain ⟨rebuild, declared⟩ := row.subclass_eq
    have below := validates wf inner narrow inside (same.subclass declared) h
    exact ⟨below.known, below.root, below.packed⟩
  | .record name fields, _, _, _, _, _, _, narrow, ⟨fs, inside, row⟩, same, h => by
    have declared := row.declaration_eq nofun
    obtain ⟨links, travels⟩ := same.travels declared nofun
    obtain ⟨below, head, a, gs, size, rfl, each⟩ :=
      Catalog.container_of_format wf travels declared h
    exact validates_record (fieldsValidate wf fields narrow inside each)
  | .choice name nullable variants, _, _, _, _, _, _, narrow, ⟨ids, inside, row⟩, same, h => by
    obtain ⟨below, head, a, gs, rfl, each⟩ := union_of_row wf row same h
    exact validates_choice narrow.1 (variantsValidate wf variants narrow.2 inside each)

theorem fieldsValidate (wf : c.schema.WellFormed) :
    ∀ (fields : ModelFields) {fs : List Field} {bound : Nat} {gs : List Format},
      FieldsNarrow fields → FieldsDeclaredIn fields c.schema fs → List.Forall₂ (fun x g =>
        c.formatBelow bound (c.schema.use x.shape (some x.name) x.hint) = .ok g) fs gs →
      FieldsValidate c.sizes fields gs
  | .nil, _, _, _, _, rfl, each => by
    cases each
    exact fieldsValidate_nil
  | .cons name model hint rest, _, _, _, narrow, ⟨id, others, inside, remaining, rfl⟩, each => by
    cases each with
    | cons found each =>
      have first := validates wf model narrow.1 inside (inside.sameTarget wf) found
      exact fieldsValidate_cons (first.named inside)
        (fieldsValidate wf rest narrow.2 remaining each)

theorem variantsValidate (wf : c.schema.WellFormed) :
    ∀ (variants : ModelVariants) {ids : List ShapeId} {bound : Nat} {gs : List Format},
      VariantsNarrow variants → VariantsDeclaredIn variants c.schema ids →
      List.Forall₂ (fun id g => c.formatBelow bound (c.schema.use id none none) = .ok g) ids gs →
      VariantsValidate c.sizes variants gs
  | .nil, _, _, _, _, rfl, each => by
    cases each
    exact variantsValidate_nil
  | .cons model rest, _, _, _, narrow, ⟨id, others, inside, remaining, rfl⟩, each => by
    cases each with
    | cons found each =>
      have first := validates wf model narrow.1 inside (inside.sameTarget wf) found
      exact variantsValidate_cons (first.named inside)
        (variantsValidate wf rest narrow.2 remaining each)

end

end Model

/-! ### Codecs -/

namespace Codec

variable {catalog : Catalog} {hasher : Hasher} {c : Codec} {shape : ShapeId} {m : Model}

/-- A codec hashes the instances of a declared model that pass the checks, and refuses the others as
the checks do. -/
theorem verdict_rootOfModel (wf : catalog.schema.WellFormed) (session : Session catalog hasher c)
    (narrow : m.Narrow) (declared : m.DeclaredIn catalog.schema shape)
    (resolves : catalog.Resolves (catalog.schema.descriptor shape)) (x : m.Instance) :
    verdict ((rootOfModel m x).run c).1 =
      (m.validate catalog.sizes m.shapeName x).mapError .encode := by
  obtain ⟨f, resolved⟩ := resolves
  rw [rootOfModel, run_withShapeOf session (declared.require_eq wf), root,
    run_withFormat session resolved, verdict_mapError]
  rw [Catalog.format, ← Schema.use_none] at resolved
  have valid := m.validates wf narrow declared (declared.sameTarget wf) resolved
  rw [(valid.named declared).root hasher x]

end Codec

end SimpleSerialize
