/-
Instances of models, as values.

An instance lowers to a value in one form, and a value of the wire comes in another: sequences of
bytes may be byte strings, and integers are words or numbers by their width only.  Lifting accepts
both.  `Model.Lifts` says of a model and a format that what the format reads can be lifted, to an
instance that is written as the same bytes, and that an instance is lifted from what it is read back
as.  Main statements:

* `Format.isNormal_of_decode`: what is read has the form in which a format reads;
* `Model.lifts`: a model lifts what any format of its structure reads.
-/
import Mathlib.Algebra.GroupWithZero.Nat
import SimpleSerialize.Model.Lift
import SimpleSerialize.Proofs.Matching
import SimpleSerialize.Proofs.RoundTrip

namespace SimpleSerialize

/-! ### What is read -/

theorem BasicForm.isNormal_of_decode {shape : String} {form : BasicForm} {bytes : Bytes} {v : Value}
    (length : bytes.length = form.size) (h : form.decode shape bytes = .ok v) : form.IsNormal v := by
  rw [decode.eq_def] at h
  split at h
  · cases h
    exact .bool false
  · cases h
    exact .bool true
  · cases h
  · simp only [size] at length
    rw [length] at h
    split at h
    · cases h
      exact .word _ ‹_›
    · cases h
      exact .number _ (Nat.lt_of_not_le ‹_›)
  · cases h
    exact .bytes _

namespace Format

variable {f : Format} {bytes : Bytes} {v : Value}

/-- What is read has the form in which a format reads. -/
theorem isNormal_of_decode (inert : f.AllLinks Rebuild.Inert) (h : f.decode bytes = .ok v) :
    f.IsNormal v := by
  induction f generalizing bytes v with
  | basic head a =>
    obtain ⟨length, w, hw, done⟩ := decode_basic_eq_ok.mp h
    obtain rfl := Handler.eq_of_finish inert.here done
    exact .basic (BasicForm.isNormal_of_decode length hw)
  | list head a regime element ih =>
    obtain ⟨windows, items, w, -, each, hw, done⟩ := decode_list_eq_ok.mp h
    obtain rfl := Handler.eq_of_finish inert.here done
    have below : element.AllLinks Rebuild.Inert := inert.inside element List.mem_cons_self
    cases base : a.base with
    | sequence =>
      rw [base] at hw
      cases hw
      exact .items base (forall_right each fun _ _ read => ih below read)
    | byteSequence =>
      rw [base, ListAccessor.create, map_eq_ok] at hw
      obtain ⟨bs, -, rfl⟩ := hw
      exact .bytes base
  | union head a nullable variants ih =>
    obtain ⟨selector, rest, body, -, done, chosen⟩ := decode_union_eq_ok.mp h
    obtain rfl := Handler.eq_of_finish inert.here done
    rcases chosen with ⟨chosen, -, rfl⟩ | ⟨f, w, chosen, read, rfl⟩
    · exact .empty chosen
    · have mem := Variant.mem_of_select chosen
      exact .body chosen (ih f mem (inert.inside f mem) read)
  | container head a fields size ih =>
    obtain ⟨windows, values, -, each, done⟩ := decode_container_eq_ok.mp h
    obtain rfl := Handler.eq_of_finish inert.here done
    refine .container ?_
    clear h done
    have below : ∀ f ∈ fields, f.AllLinks Rebuild.Inert := inert.inside
    clear inert
    induction each with
    | nil => exact .nil
    | cons read _ ihTail =>
      refine .cons (ih _ List.mem_cons_self (below _ List.mem_cons_self) read) ?_
      exact ihTail (fun f mem => ih f (List.mem_cons_of_mem _ mem))
        fun f mem => below f (List.mem_cons_of_mem _ mem)

/-- What a basic format reads and writes again has its form. -/
theorem form_of_basic {head : Heading} {a : Handler BasicForm} {form : BasicForm}
    (base : a.base = form) (normal : (basic head a).IsNormal v)
    (h : (basic head a).encode v = .ok bytes) :
    form.IsNormal v ∧ form.encode a.shape v = .ok bytes := by
  obtain ⟨w, shown, encoded⟩ := encode_basic_eq_ok.mp h
  cases normal.concrete.symm.trans shown
  rw [Handler.encode, base] at encoded
  cases normal with
  | basic normal => exact ⟨base ▸ normal, encoded⟩

/-- A value that has the form of a basic format is read back as it is. -/
theorem normal_basic_eq {head : Heading} {a : Handler BasicForm} {form : BasicForm}
    (base : a.base = form) (normal : form.IsNormal v) :
    (basic head a).normal v = v :=
  normal_of_isNormal (.basic (base.symm ▸ normal))

end Format

/-! ### Unions and containers -/

namespace Variant

variable {α : Type} {nullable : Bool} {variants : List α} {selector : UInt32} {a : α}

theorem selector_ne_zero {i : Nat} (place : selector.toNat = 1 + i) : selector ≠ 0 := by
  rintro rfl
  exact Nat.ne_of_lt (Nat.add_pos_left Nat.one_pos i) place

theorem select_eq_empty :
    select nullable variants selector = some .empty ↔ nullable = true ∧ selector = 0 := by
  rw [select]
  cases nullable <;> simp

/-- The selectors of a nullable union count its variants from one. -/
theorem select_eq_body : select nullable variants selector = some (.body a) ↔
    ∃ i, selector.toNat = nullable.toNat + i ∧ variants[i]? = some a := by
  rw [select]
  cases nullable with
  | false => simp
  | true =>
    by_cases zero : selector = 0
    · -- The empty case, and no variant is counted from zero.
      simp only [if_true, if_pos zero, Option.some.injEq, reduceCtorEq, false_iff, not_exists]
      rintro i ⟨place, -⟩
      exact selector_ne_zero place zero
    · have positive : 0 < selector.toNat :=
        Nat.pos_of_ne_zero fun none => zero (UInt32.toNat_inj.mp none)
      simp only [if_true, if_neg zero, Option.map_eq_some_iff, Variant.body.injEq,
        exists_eq_right, Bool.toNat_true]
      constructor
      · exact fun here => ⟨selector.toNat - 1, (Nat.add_sub_cancel' positive).symm, here⟩
      · rintro ⟨i, place, here⟩
        rw [place, Nat.add_sub_cancel_left]
        exact here

end Variant

theorem Format.encode_body {head : Heading} {a : Handler UnionAccessor} {nullable : Bool}
    {gs : List Format} {selector : UInt32} {g : Format} {w : Value} {bytes : Bytes}
    (chosen : Variant.select nullable gs selector = some (.body g)) :
    (Format.union head a nullable gs).encode (.union selector (some w)) = .ok bytes ↔
      ∃ rest, bytes = selectorBytes selector ++ rest ∧ g.encode w = .ok rest := by
  rw [encode_union_eq_ok]
  constructor
  · rintro ⟨v, selector', rest, shown, hs, rfl, other⟩
    cases shown
    obtain ⟨body, same⟩ := UnionAccessor.selector_eq_ok.mp hs
    cases same
    obtain ⟨never, -⟩ | ⟨f, body, again, found, written⟩ := other
    · cases chosen.symm.trans never
    · cases chosen.symm.trans again
      cases found
      exact ⟨rest, rfl, written⟩
  · rintro ⟨rest, rfl, written⟩
    exact ⟨_, selector, rest, rfl, rfl, rfl, .inr ⟨g, w, chosen, rfl, written⟩⟩

theorem Format.encode_fields {head : Heading} {a : Handler ContainerAccessor} {gs : List Format}
    {size : Option Nat} {values : List Value} {bytes : Bytes} :
    (Format.container head a gs size).encode (.container values) = .ok bytes ↔
      ∃ bodies, Aligned (fun g v body => g.encode v = .ok body) gs values bodies ∧
        Layout.Written ((gs.map fixedSize).zip bodies) bytes := by
  rw [encode_container_eq_ok]
  constructor
  · rintro ⟨v, values', bodies, shown, hvalues, rest⟩
    cases shown
    cases ContainerAccessor.fieldsOf_eq_ok.mp hvalues
    exact ⟨bodies, rest⟩
  · rintro ⟨bodies, rest⟩
    exact ⟨_, values, bodies, rfl, rfl, rest⟩

/-! ### Narrow choices -/

def ModelVariants.length : ModelVariants → Nat
  | .nil => 0
  | .cons _ rest => rest.length + 1

namespace Model

mutual

/-- Every choice in the model has fewer variants than there are selectors, which are numbers of 32
bits. -/
def Narrow : Model → Prop
  | .list element | .vector element _ | .boundedList element _ => element.Narrow
  | .sizedVector element _ | .sizedList element _ => element.Narrow
  | .option body => body.Narrow
  | .newtype _ inner _ => inner.Narrow
  | .record _ fields => FieldsNarrow fields
  | .choice _ _ variants => variants.length < 2 ^ 32 ∧ VariantsNarrow variants
  | _ => True

def FieldsNarrow : ModelFields → Prop
  | .nil => True
  | .cons _ model _ rest => model.Narrow ∧ FieldsNarrow rest

def VariantsNarrow : ModelVariants → Prop
  | .nil => True
  | .cons model rest => model.Narrow ∧ VariantsNarrow rest

end

/-! ### What has to be shown -/

/-- A model lifts what a format reads: to an instance that is written as the same bytes, and to the
instance that the bytes were written from. -/
structure Lifts (m : Model) (f : Format) : Prop where
  accept : ∀ v bytes, f.IsNormal v → f.encode v = .ok bytes →
    ∃ x, m.lift v = .ok x ∧ f.encode (m.lower x) = .ok bytes
  recover : m.Narrow → ∀ x bytes, f.encode (m.lower x) = .ok bytes →
    m.lift (f.normal (m.lower x)) = .ok x

/-- The fields of a record lift what formats read. -/
structure FieldsLift (fields : ModelFields) (gs : List Format) : Prop where
  length_eq : fields.length = gs.length
  accept : ∀ name values bodies, List.Forall₂ Format.IsNormal gs values →
    Aligned (fun g v body => g.encode v = .ok body) gs values bodies →
    ∃ xs, liftFields name fields values = .ok xs ∧
      Aligned (fun g v body => g.encode v = .ok body) gs (lowerFields fields xs) bodies
  recover : FieldsNarrow fields → ∀ name xs bodies,
    Aligned (fun g v body => g.encode v = .ok body) gs (lowerFields fields xs) bodies →
    liftFields name fields (gs.zipWith Format.normal (lowerFields fields xs)) = .ok xs

/-- The variants of a choice lift what formats read. -/
structure VariantsLift (variants : ModelVariants) (gs : List Format) : Prop where
  length_eq : variants.length = gs.length
  accept : ∀ name start i g w bytes, gs[i]? = some g → g.IsNormal w → g.encode w = .ok bytes →
    ∃ x w', liftVariant name variants i w = .ok x ∧
      lowerVariant variants start x = .union (UInt32.ofNat (start + i)) (some w') ∧
      g.encode w' = .ok bytes
  recover : VariantsNarrow variants → ∀ name start x, ∃ i g w, gs[i]? = some g ∧
    lowerVariant variants start x = .union (UInt32.ofNat (start + i)) (some w) ∧
    ∀ bytes, g.encode w = .ok bytes → liftVariant name variants i (g.normal w) = .ok x

/-! ### Sequences -/

section Sequence

variable {head : Heading} {a : Handler ListAccessor} {regime : Regime} {g : Format}
  {element : Model} {v : Value} {bytes : Bytes}

/-- The elements of a sequence that was read have been read, too. -/
theorem elements_of_normal (lawful : (Format.list head a regime g).Lawful)
    (normal : (Format.list head a regime g).IsNormal v) (name : String) :
    ∃ items, elements name v = .ok items ∧ a.items v = .ok items ∧
      ∀ item ∈ items, g.IsNormal item := by
  cases normal with
  | items base each => exact ⟨_, rfl, ListAccessor.items_eq_ok.mpr (.inl rfl), each⟩
  | @bytes _ _ _ _ bs base =>
    refine ⟨_, rfl, ListAccessor.items_eq_ok.mpr (.inr ⟨base, bs, rfl, rfl⟩), ?_⟩
    exact List.forall_mem_map.mpr fun b _ => Format.isNormal_byte (lawful.here.2 base) b

/-- Lifts every element of a sequence that was read. -/
theorem Lifts.accept_items (inner : element.Lifts g)
    (lawful : (Format.list head a regime g).Lawful)
    (normal : (Format.list head a regime g).IsNormal v)
    (h : (Format.list head a regime g).encode v = .ok bytes) (name : String) :
    ∃ xs, (elements name v >>= fun items => items.mapM fun item => element.lift item) = .ok xs ∧
      regime.Admits xs.length ∧
      (Format.list head a regime g).encode (.list (xs.map fun x => element.lower x)) =
        .ok bytes := by
  obtain ⟨items, found, hitems, each⟩ := elements_of_normal lawful normal name
  obtain ⟨w, items', bodies, shown, hitems', admits, written, layout⟩ :=
    Format.encode_list_eq_ok.mp h
  cases normal.concrete.symm.trans shown
  cases hitems.symm.trans hitems'
  -- Each element was written on its own, so that the hypothesis on elements applies to it.
  obtain ⟨xs, lifted, again⟩ : ∃ xs, List.Forall₂ (fun item x => element.lift item = .ok x) items xs ∧
      List.Forall₂ (fun x body => g.encode (element.lower x) = .ok body) xs bodies := by
    clear found hitems hitems' admits layout
    induction written with
    | nil => exact ⟨[], .nil, .nil⟩
    | cons first _ ih =>
      obtain ⟨here, others⟩ := List.forall_mem_cons.mp each
      obtain ⟨x, lifted, written⟩ := inner.accept _ _ here first
      obtain ⟨xs, rest, again⟩ := ih others
      exact ⟨x :: xs, .cons lifted rest, .cons written again⟩
  have count : items.length = xs.length := lifted.length_eq
  refine ⟨xs, bind_eq_ok.mpr ⟨items, found, mapM_eq_ok.mpr lifted⟩, count ▸ admits, ?_⟩
  refine Format.encode_list_eq_ok.mpr ⟨_, _, bodies, rfl, ListAccessor.items_eq_ok.mpr (.inl rfl), ?_,
    List.forall₂_map_left_iff.mpr again, layout⟩
  rw [List.length_map, ← count]
  exact admits

/-- The elements of a sequence that was written are read back in their form. -/
theorem elements_normal (lawful : (Format.list head a regime g).Lawful) {items : List Value}
    (h : (Format.list head a regime g).encode (.list items) = .ok bytes) (name : String) :
    elements name ((Format.list head a regime g).normal (.list items)) =
      .ok (items.map g.normal) := by
  cases base : a.base with
  | sequence =>
    rw [Format.normal_items base rfl]
    rfl
  | byteSequence =>
    obtain ⟨w, items', bodies, shown, hitems, -, written, -⟩ := Format.encode_list_eq_ok.mp h
    cases shown
    obtain same | ⟨-, bs, bad, -⟩ := ListAccessor.items_eq_ok.mp hitems
    · cases same
      -- The bytes are looked at as numbers again, which is the form of the elements.
      rw [Format.normal_byteItems base rfl]
      refine congrArg Except.ok ?_
      rw [List.map_map]
      refine List.map_congr_left (forall_left written fun item body encoded => ?_)
      obtain ⟨b, -, read⟩ := Format.byte_of_encode (lawful.here.2 base) encoded
      rw [Function.comp_apply, read, Value.byte, UInt8.toUInt8_toUInt64]
    · cases bad

/-- Lifts every element of a sequence that is read back. -/
theorem Lifts.recover_items (inner : element.Lifts g) (narrow : element.Narrow)
    (lawful : (Format.list head a regime g).Lawful) {xs : List element.Instance}
    (h : (Format.list head a regime g).encode (.list (xs.map fun x => element.lower x)) = .ok bytes)
    (name : String) :
    (elements name ((Format.list head a regime g).normal
        (.list (xs.map fun x => element.lower x))) >>=
      fun items => items.mapM fun item => element.lift item) = .ok xs := by
  refine bind_eq_ok.mpr ⟨_, elements_normal lawful h name, mapM_eq_ok.mpr ?_⟩
  obtain ⟨w, items, bodies, shown, hitems, -, written, -⟩ := Format.encode_list_eq_ok.mp h
  cases shown
  obtain same | ⟨-, bs, bad, -⟩ := ListAccessor.items_eq_ok.mp hitems
  · cases same
    rw [List.map_map, List.forall₂_map_left_iff, List.forall₂_same]
    refine forall_left (List.forall₂_map_left_iff.mp written) fun x body encoded => ?_
    exact inner.recover narrow x body encoded
  · cases bad

end Sequence

/-! ### One model -/

section Basic

variable {head : Heading} {a : Handler BasicForm}

theorem lifts_bool (base : a.base = .bool) : Lifts .bool (.basic head a) where
  accept v bytes normal h := by
    obtain ⟨normal, -⟩ := Format.form_of_basic base normal h
    cases normal with
    | bool b => exact ⟨b, rfl, h⟩
  recover _ x bytes h := by
    have same : (Format.basic head a).normal (.bool x) = .bool x :=
      Format.normal_basic_eq base (.bool x)
    exact congrArg (lift .bool) same

theorem liftWord_eq_ok {size : WordSize} {n : Nat} (small : n < LittleEndian.capacity size.bytes) :
    liftWord size n = .ok ⟨n, small⟩ := dif_pos small

theorem lift_word (size : WordSize) (n : UInt64) :
    (Model.uint size).lift (.uint n) = liftWord size n.toNat := rfl

/-- Words of up to eight bytes are lowered to words. -/
theorem lowerWord_narrow {size : WordSize} (narrow : size.bytes ≤ 8)
    (x : Fin (LittleEndian.capacity size.bytes)) :
    lowerWord size x = .uint (UInt64.ofNat x.val) := by
  cases size with
  | sixteen => exact absurd narrow (by decide)
  | _ => rfl

theorem eq_sixteen {size : WordSize} (wide : 8 < size.bytes) : size = .sixteen := by
  cases size with
  | sixteen => rfl
  | _ => exact absurd wide (by decide)

/-- A word is lowered to the form in which its bytes are read. -/
theorem isNormal_lowerWord (size : WordSize) (x : Fin (LittleEndian.capacity size.bytes)) :
    (BasicForm.uint size.bytes).IsNormal (lowerWord size x) := by
  rcases Nat.lt_or_ge 8 size.bytes with wide | narrow
  · obtain rfl := eq_sixteen wide
    exact .number x.val wide
  · rw [lowerWord_narrow narrow]
    exact .word _ narrow

theorem lift_lowerWord (size : WordSize) (x : Fin (LittleEndian.capacity size.bytes)) :
    (Model.uint size).lift (lowerWord size x) = .ok x := by
  rcases Nat.lt_or_ge 8 size.bytes with wide | narrow
  · obtain rfl := eq_sixteen wide
    exact liftWord_eq_ok x.isLt
  · -- Words of up to eight bytes count no further than 64 bits do.
    have small : x.val < 2 ^ 64 := Nat.lt_of_lt_of_le x.isLt (LittleEndian.capacity_mono narrow)
    rw [lowerWord_narrow narrow, lift_word, UInt64.toNat_ofNat_of_lt' small]
    exact liftWord_eq_ok x.isLt

theorem lifts_uint {size : WordSize} (base : a.base = .uint size.bytes) :
    Lifts (.uint size) (.basic head a) where
  accept v bytes normal h := by
    obtain ⟨normal, encoded⟩ := Format.form_of_basic base normal h
    cases normal with
    | word n narrow =>
      obtain ⟨small, -⟩ := BasicForm.encodeInteger_eq_ok.mp encoded
      refine ⟨(⟨n.toNat, small⟩ : Fin _), (lift_word size n).trans (liftWord_eq_ok small), ?_⟩
      have same : lowerWord size ⟨n.toNat, small⟩ = .uint n := by
        rw [lowerWord_narrow narrow, UInt64.ofNat_toNat]
      exact (congrArg (Format.basic head a).encode same).trans h
    | number n wide =>
      obtain ⟨small, -⟩ := BasicForm.encodeInteger_eq_ok.mp encoded
      obtain rfl := eq_sixteen wide
      exact ⟨(⟨n, small⟩ : Fin _), liftWord_eq_ok small, h⟩
  recover _ := by
    intro (x : Fin _) bytes _
    have same := @Format.normal_basic_eq _ head a _ base (isNormal_lowerWord size x)
    exact (congrArg (Model.uint size).lift same).trans (lift_lowerWord size x)

theorem lifts_uint256 (base : a.base = .uint 32) : Lifts .uint256 (.basic head a) where
  accept v bytes normal h := by
    obtain ⟨normal, encoded⟩ := Format.form_of_basic base normal h
    cases normal with
    | word n narrow => exact absurd narrow (by decide)
    | number n wide =>
      obtain ⟨small, -⟩ := BasicForm.encodeInteger_eq_ok.mp encoded
      exact ⟨(n : Nat), if_pos small, h⟩
  recover _ := by
    intro (x : Nat) bytes h
    -- An instance may be of any size, but only one of 32 bytes was written.
    have normal : (BasicForm.uint 32).IsNormal (.bigUint x) := .number x (by decide)
    obtain ⟨-, encoded⟩ := Format.form_of_basic base (.basic (base.symm ▸ normal)) h
    obtain ⟨small, -⟩ := BasicForm.encodeInteger_eq_ok.mp encoded
    have same := @Format.normal_basic_eq _ head a _ base normal
    exact (congrArg Model.uint256.lift same).trans (if_pos small)

theorem lift_bytes {length : UInt32} (x : FixedBytes length.toNat) :
    (Model.bytes length).lift (.bytes x.bytes) = .ok x := by
  change (FixedBytes.ofBytes? length.toNat x.bytes).mapError _ = _
  rw [FixedBytes.ofBytes?_eq_ok.mpr rfl]
  rfl

theorem lifts_bytes {length : UInt32} (base : a.base = .bytes length.toNat) :
    Lifts (.bytes length) (.basic head a) where
  accept v bytes normal h := by
    obtain ⟨normal, encoded⟩ := Format.form_of_basic base normal h
    cases normal with
    | bytes bs =>
      rw [BasicForm.encode] at encoded
      split at encoded
      · rename_i width
        exact ⟨(⟨bs, width⟩ : FixedBytes _), lift_bytes ⟨bs, width⟩, h⟩
      · cases encoded
  recover _ := by
    intro (x : FixedBytes _) bytes _
    have same := @Format.normal_basic_eq _ head a _ base (.bytes x.bytes)
    exact (congrArg (Model.bytes length).lift same).trans (lift_bytes x)

end Basic

/-- A newtype is lifted as what it wraps. -/
theorem lifts_newtype {name : String} {inner : Model} {check : Rebuild} {f : Format}
    (h : inner.Lifts f) : Lifts (.newtype name inner check) f where
  accept := h.accept
  recover := h.recover

section Composite

variable {g : Format} {element : Model} {v : Value} {bytes : Bytes}

section Sequence

variable {head : Heading} {a : Handler ListAccessor} {regime : Regime}

theorem lifts_list (inner : element.Lifts g)
    (lawful : (Format.list head a regime g).Lawful) :
    Lifts (.list element) (.list head a regime g) where
  accept v bytes normal h := by
    obtain ⟨xs, lifted, -, again⟩ := inner.accept_items lawful normal h (shapeName (.list element))
    exact ⟨xs, lifted, again⟩
  recover narrow xs bytes h := inner.recover_items narrow lawful h (shapeName (.list element))

theorem lifts_sizedVector {length : String} (inner : element.Lifts g)
    (lawful : (Format.list head a regime g).Lawful) :
    Lifts (.sizedVector element length) (.list head a regime g) where
  accept v bytes normal h := by
    obtain ⟨xs, lifted, -, again⟩ :=
      inner.accept_items lawful normal h (shapeName (.sizedVector element length))
    exact ⟨xs, lifted, again⟩
  recover narrow xs bytes h :=
    inner.recover_items narrow lawful h (shapeName (.sizedVector element length))

theorem lifts_sizedList {limit : String} (inner : element.Lifts g)
    (lawful : (Format.list head a regime g).Lawful) :
    Lifts (.sizedList element limit) (.list head a regime g) where
  accept v bytes normal h := by
    obtain ⟨xs, lifted, -, again⟩ :=
      inner.accept_items lawful normal h (shapeName (.sizedList element limit))
    exact ⟨xs, lifted, again⟩
  recover narrow xs bytes h :=
    inner.recover_items narrow lawful h (shapeName (.sizedList element limit))

/-- Lifting a vector lifts its elements and counts them. -/
theorem lift_vector {length : UInt64} {v : Value} (xs : Exactly element.Instance length.toNat)
    (lifted : (elements (shapeName (.vector element length)) v >>=
      fun items => items.mapM fun item => element.lift item) = .ok xs.items) :
    (Model.vector element length).lift v = .ok xs := by
  obtain ⟨items, found, each⟩ := bind_eq_ok.mp lifted
  refine bind_eq_ok.mpr ⟨items, found, bind_eq_ok.mpr ⟨xs.items, each, ?_⟩⟩
  exact mapError_eq_ok.mpr (Exactly.ofList?_items xs)

theorem lifts_vector {length : UInt64} (inner : element.Lifts g)
    (lawful : (Format.list head a (.vector length) g).Lawful) :
    Lifts (.vector element length) (.list head a (.vector length) g) where
  accept v bytes normal h := by
    obtain ⟨xs, lifted, admits, again⟩ :=
      inner.accept_items lawful normal h (shapeName (.vector element length))
    exact ⟨(⟨xs, admits⟩ : Exactly _ _), lift_vector ⟨xs, admits⟩ lifted, again⟩
  recover narrow xs bytes h :=
    lift_vector xs (inner.recover_items narrow lawful h (shapeName (.vector element length)))

/-- Lifting a bounded list lifts its elements and counts them. -/
theorem lift_boundedList {limit : UInt64} {v : Value} (xs : UpTo element.Instance limit.toNat)
    (lifted : (elements (shapeName (.boundedList element limit)) v >>=
      fun items => items.mapM fun item => element.lift item) = .ok xs.items) :
    (Model.boundedList element limit).lift v = .ok xs := by
  obtain ⟨items, found, each⟩ := bind_eq_ok.mp lifted
  refine bind_eq_ok.mpr ⟨items, found, bind_eq_ok.mpr ⟨xs.items, each, ?_⟩⟩
  exact mapError_eq_ok.mpr (UpTo.ofList?_items xs)

theorem lifts_boundedList {limit : UInt64} (inner : element.Lifts g)
    (lawful : (Format.list head a (.list (some limit)) g).Lawful) :
    Lifts (.boundedList element limit) (.list head a (.list (some limit)) g) where
  accept v bytes normal h := by
    obtain ⟨xs, lifted, admits, again⟩ :=
      inner.accept_items lawful normal h (shapeName (.boundedList element limit))
    exact ⟨(⟨xs, admits⟩ : UpTo _ _), lift_boundedList ⟨xs, admits⟩ lifted, again⟩
  recover narrow xs bytes h :=
    lift_boundedList xs (inner.recover_items narrow lawful h (shapeName (.boundedList element limit)))

end Sequence

section Union

variable {head : Heading} {a : Handler UnionAccessor} {nullable : Bool} {gs : List Format}
  {variants : ModelVariants}

theorem lift_option_none : (Model.option element).lift (.union 0 none) = .ok none := rfl

theorem lift_option_some {x : element.Instance} (lifted : element.lift v = .ok x) :
    (Model.option element).lift (.union 1 (some v)) = .ok (some x) := by
  change (element.lift v >>= fun x => .ok (some x)) = .ok (some x)
  rw [lifted, ok_bind]

theorem lifts_option (inner : element.Lifts g) : Lifts (.option element) (.union head a true [g]) where
  accept v bytes normal h := by
    cases normal with
    | @empty _ _ _ _ selector chosen =>
      obtain ⟨-, rfl⟩ := Variant.select_eq_empty.mp chosen
      exact ⟨none, lift_option_none, h⟩
    | @body _ _ _ _ selector f w chosen normal =>
      obtain ⟨i, place, here⟩ := Variant.select_eq_body.mp chosen
      obtain ⟨rfl, rfl⟩ : i = 0 ∧ g = f := by
        cases i with
        | zero => exact ⟨rfl, Option.some.inj here⟩
        | succ i => cases here
      obtain rfl : selector = 1 := UInt32.toNat_inj.mp place
      obtain ⟨rest, rfl, written⟩ := (Format.encode_body chosen).mp h
      obtain ⟨x, lifted, again⟩ := inner.accept w rest normal written
      exact ⟨some x, lift_option_some lifted, (Format.encode_body chosen).mpr ⟨rest, rfl, again⟩⟩
  recover narrow := by
    intro (x : Option element.Instance) bytes h
    cases x with
    | none =>
      have same : (Format.union head a true [g]).normal (.union 0 none) = .union 0 none :=
        Format.normal_empty rfl rfl
      exact (congrArg (Model.option element).lift same).trans lift_option_none
    | some x =>
      have chosen : Variant.select true [g] 1 = some (.body g) := rfl
      obtain ⟨rest, rfl, written⟩ := (Format.encode_body chosen).mp h
      have same : (Format.union head a true [g]).normal (.union 1 (some (element.lower x))) =
          .union 1 (some (g.normal (element.lower x))) :=
        @Format.normal_body _ _ _ _ _ _ (some _) _ chosen rfl
      exact (congrArg (Model.option element).lift same).trans
        (lift_option_some (inner.recover narrow x rest written))

/-- Lifts the body of a variant that was read. -/
theorem VariantsLift.accept_body (each : VariantsLift variants gs) {selector : UInt32} {w : Value}
    (chosen : Variant.select nullable gs selector = some (.body g)) (normal : g.IsNormal w)
    (h : (Format.union head a nullable gs).encode (.union selector (some w)) = .ok bytes)
    (name : String) :
    ∃ i x, selector.toNat = nullable.toNat + i ∧ liftVariant name variants i w = .ok x ∧
      (Format.union head a nullable gs).encode (lowerVariant variants nullable.toNat x) =
        .ok bytes := by
  obtain ⟨i, place, here⟩ := Variant.select_eq_body.mp chosen
  obtain ⟨rest, rfl, written⟩ := (Format.encode_body chosen).mp h
  obtain ⟨x, w', lifted, lowered, again⟩ :=
    each.accept name nullable.toNat i g w rest here normal written
  refine ⟨i, x, place, lifted, ?_⟩
  rw [lowered, ← place, UInt32.ofNat_toNat]
  exact (Format.encode_body chosen).mpr ⟨rest, rfl, again⟩

/-- Lifts the body of a variant that is read back. -/
theorem VariantsLift.recover_body (each : VariantsLift variants gs) (nullable : Bool)
    (few : variants.length < 2 ^ 32) (narrow : VariantsNarrow variants) {x : ChoiceInstance variants}
    (h : (Format.union head a nullable gs).encode (lowerVariant variants nullable.toNat x) =
      .ok bytes) (name : String) :
    ∃ i selector w, selector.toNat = nullable.toNat + i ∧
      (Format.union head a nullable gs).normal (lowerVariant variants nullable.toNat x) =
        .union selector (some w) ∧ liftVariant name variants i w = .ok x := by
  obtain ⟨i, g, w, here, lowered, lifted⟩ := each.recover narrow name nullable.toNat x
  -- There are few enough variants for their selectors to differ.
  have place : (UInt32.ofNat (nullable.toNat + i)).toNat = nullable.toNat + i := by
    have known : i < gs.length := (List.getElem?_eq_some_iff.mp here).1
    have less := each.length_eq
    have one := nullable.toNat_le
    exact UInt32.toNat_ofNat_of_lt' (by simp only [UInt32.size]; omega)
  have chosen : Variant.select nullable gs (UInt32.ofNat (nullable.toNat + i)) = some (.body g) :=
    Variant.select_eq_body.mpr ⟨i, place, here⟩
  rw [lowered] at h ⊢
  obtain ⟨rest, rfl, written⟩ := (Format.encode_body chosen).mp h
  exact ⟨i, _, g.normal w, place, @Format.normal_body _ _ _ _ _ _ (some w) _ chosen rfl,
    lifted rest written⟩

theorem lift_nullableChoice_none {name : String} :
    (Model.choice name true variants).lift (.union 0 none) = .ok none := rfl

theorem lift_nullableChoice_some {name : String} {selector : UInt32} {i : Nat}
    {x : ChoiceInstance variants} (place : selector.toNat = 1 + i)
    (lifted : liftVariant name variants i v = .ok x) :
    (Model.choice name true variants).lift (.union selector (some v)) = .ok (some x) := by
  refine (if_neg (Variant.selector_ne_zero place)).trans (bind_eq_ok.mpr ⟨x, ?_, rfl⟩)
  rw [place, Nat.add_sub_cancel_left]
  exact lifted

theorem lift_choice {name : String} {selector : UInt32} {i : Nat} {x : ChoiceInstance variants}
    (place : selector.toNat = 0 + i) (lifted : liftVariant name variants i v = .ok x) :
    (Model.choice name false variants).lift (.union selector (some v)) = .ok x := by
  change liftVariant name variants selector.toNat v = .ok x
  rw [place, Nat.zero_add]
  exact lifted

theorem lifts_nullableChoice {name : String} (each : VariantsLift variants gs) :
    Lifts (.choice name true variants) (.union head a true gs) where
  accept v bytes normal h := by
    cases normal with
    | empty chosen =>
      obtain ⟨-, rfl⟩ := Variant.select_eq_empty.mp chosen
      exact ⟨none, lift_nullableChoice_none, h⟩
    | body chosen normal =>
      obtain ⟨i, x, place, lifted, again⟩ := each.accept_body chosen normal h name
      exact ⟨some x, lift_nullableChoice_some place lifted, again⟩
  recover narrow := by
    intro (x : Option (ChoiceInstance variants)) bytes h
    cases x with
    | none =>
      have same : (Format.union head a true gs).normal (.union 0 none) = .union 0 none :=
        Format.normal_empty rfl rfl
      exact (congrArg (Model.choice name true variants).lift same).trans lift_nullableChoice_none
    | some x =>
      obtain ⟨i, selector, w, place, same, lifted⟩ :=
        each.recover_body true narrow.1 narrow.2 h name
      exact (congrArg (Model.choice name true variants).lift same).trans
        (lift_nullableChoice_some place lifted)

theorem lifts_choice {name : String} (each : VariantsLift variants gs) :
    Lifts (.choice name false variants) (.union head a false gs) where
  accept v bytes normal h := by
    cases normal with
    | empty chosen =>
      obtain ⟨never, -⟩ := Variant.select_eq_empty.mp chosen
      cases never
    | body chosen normal =>
      obtain ⟨i, x, place, lifted, again⟩ := each.accept_body chosen normal h name
      exact ⟨x, lift_choice place lifted, again⟩
  recover narrow := by
    intro (x : ChoiceInstance variants) bytes h
    obtain ⟨i, selector, w, place, same, lifted⟩ :=
      each.recover_body false narrow.1 narrow.2 h name
    exact (congrArg (Model.choice name false variants).lift same).trans (lift_choice place lifted)

theorem variantsLift_nil : VariantsLift .nil [] where
  length_eq := rfl
  accept _ _ _ _ _ _ here := nomatch here
  recover _ _ _ x := nomatch x

theorem variantsLift_cons (first : element.Lifts g) (rest : VariantsLift variants gs) :
    VariantsLift (.cons element variants) (g :: gs) where
  length_eq := congrArg (· + 1) rest.length_eq
  accept name start i f w bytes here normal h := by
    cases i with
    | zero =>
      obtain rfl : g = f := Option.some.inj here
      obtain ⟨x, lifted, again⟩ := first.accept w bytes normal h
      exact ⟨.inl x, _, bind_eq_ok.mpr ⟨x, lifted, rfl⟩, rfl, again⟩
    | succ i =>
      -- The other variants count from the next selector.
      obtain ⟨x, w', lifted, lowered, again⟩ :=
        rest.accept name (start + 1) i f w bytes here normal h
      rw [Nat.add_right_comm] at lowered
      exact ⟨.inr x, w', bind_eq_ok.mpr ⟨x, lifted, rfl⟩, lowered, again⟩
  recover narrow name start := by
    intro (x : element.Instance ⊕ ChoiceInstance variants)
    cases x with
    | inl x =>
      refine ⟨0, g, element.lower x, rfl, rfl, fun bytes h => ?_⟩
      exact bind_eq_ok.mpr ⟨x, first.recover narrow.1 x bytes h, rfl⟩
    | inr x =>
      obtain ⟨i, f, w, here, lowered, lifted⟩ := rest.recover narrow.2 name (start + 1) x
      rw [Nat.add_right_comm] at lowered
      refine ⟨i + 1, f, w, here, lowered, fun bytes h => ?_⟩
      exact bind_eq_ok.mpr ⟨x, lifted bytes h, rfl⟩

end Union

section Container

variable {head : Heading} {a : Handler ContainerAccessor} {size : Option Nat} {gs : List Format}
  {fields : ModelFields}

theorem lift_record {name : String} {values : List Value} {xs : RecordInstance fields}
    (arity : values.length = fields.length) (lifted : liftFields name fields values = .ok xs) :
    (Model.record name fields).lift (.container values) = .ok xs :=
  bind_eq_ok.mpr ⟨values, if_pos arity, lifted⟩

theorem lifts_record {name : String} (each : FieldsLift fields gs) :
    Lifts (.record name fields) (.container head a gs size) where
  accept v bytes normal h := by
    cases normal with
    | container normal =>
      obtain ⟨bodies, written, layout⟩ := Format.encode_fields.mp h
      obtain ⟨xs, lifted, again⟩ := each.accept name _ bodies normal written
      have arity := written.length_left.symm.trans each.length_eq.symm
      exact ⟨xs, lift_record arity lifted, Format.encode_fields.mpr ⟨bodies, again, layout⟩⟩
  recover narrow := by
    intro (xs : RecordInstance fields) bytes h
    obtain ⟨bodies, written, -⟩ := Format.encode_fields.mp h
    have same : (Format.container head a gs size).normal (.container (lowerFields fields xs)) =
        .container (gs.zipWith Format.normal (lowerFields fields xs)) := Format.normal_container rfl
    have arity : (gs.zipWith Format.normal (lowerFields fields xs)).length = fields.length := by
      rw [List.length_zipWith, ← written.length_left, Nat.min_self, each.length_eq]
    exact (congrArg (Model.record name fields).lift same).trans
      (lift_record arity (each.recover narrow name xs bodies written))

theorem fieldsLift_nil : FieldsLift .nil [] where
  length_eq := rfl
  accept _ values bodies _ written := by
    cases written
    exact ⟨(), rfl, .nil⟩
  recover _ _ _ _ _ := rfl

theorem fieldsLift_cons {name : String} {hint : Option String} (first : element.Lifts g)
    (rest : FieldsLift fields gs) : FieldsLift (.cons name element hint fields) (g :: gs) where
  length_eq := congrArg (· + 1) rest.length_eq
  accept record values bodies normal written := by
    cases written with
    | cons here others =>
      cases normal with
      | cons normal normals =>
        obtain ⟨x, lifted, again⟩ := first.accept _ _ normal here
        obtain ⟨xs, lifteds, agains⟩ := rest.accept record _ _ normals others
        refine ⟨(x, xs), ?_, .cons again agains⟩
        exact bind_eq_ok.mpr ⟨x, lifted, bind_eq_ok.mpr ⟨xs, lifteds, rfl⟩⟩
  recover narrow record := by
    intro (⟨x, xs⟩ : element.Instance × RecordInstance fields) bodies written
    cases written with
    | cons here others =>
      have lifted := first.recover narrow.1 x _ here
      have lifteds := rest.recover narrow.2 record xs _ others
      exact bind_eq_ok.mpr ⟨x, lifted, bind_eq_ok.mpr ⟨xs, lifteds, rfl⟩⟩

end Container

end Composite

/-! ### Every model -/

mutual

/-- A model lifts what any format of its structure reads. -/
theorem lifts : ∀ (m : Model) {f : Format}, m.Matches f → f.Lawful → m.Lifts f
  | .bool, _, .bool form, _ => lifts_bool form
  | .uint _, _, .uint form, _ => lifts_uint form
  | .uint256, _, .uint256 form, _ => lifts_uint256 form
  | .bytes _, _, .bytes form, _ => lifts_bytes form
  | .list element, _, .list _ _ inside, lawful =>
    lifts_list (lifts element inside (lawful.inside _ List.mem_cons_self)) lawful
  | .option body, _, .option _ _ inside, lawful =>
    lifts_option (lifts body inside (lawful.inside _ List.mem_cons_self))
  | .vector element _, _, .vector _ _ _ inside, lawful =>
    lifts_vector (lifts element inside (lawful.inside _ List.mem_cons_self)) lawful
  | .boundedList element _, _, .boundedList _ _ _ inside, lawful =>
    lifts_boundedList (lifts element inside (lawful.inside _ List.mem_cons_self)) lawful
  | .sizedVector element _, _, .sizedVector _ _ _ inside, lawful =>
    lifts_sizedVector (lifts element inside (lawful.inside _ List.mem_cons_self)) lawful
  | .sizedList element _, _, .sizedList _ _ _ inside, lawful =>
    lifts_sizedList (lifts element inside (lawful.inside _ List.mem_cons_self)) lawful
  | .newtype _ inner _, _, .newtype inside, lawful => lifts_newtype (lifts inner inside lawful)
  | .record _ fields, _, .record _ _ _ inside, lawful =>
    lifts_record (fieldsLift fields inside lawful.inside)
  | .choice _ true variants, _, .choice _ _ inside, lawful =>
    lifts_nullableChoice (variantsLift variants inside lawful.inside)
  | .choice _ false variants, _, .choice _ _ inside, lawful =>
    lifts_choice (variantsLift variants inside lawful.inside)

theorem fieldsLift : ∀ (fields : ModelFields) {gs : List Format}, FieldsMatch fields gs →
    (∀ g ∈ gs, g.Lawful) → FieldsLift fields gs
  | .nil, _, .nil, _ => fieldsLift_nil
  | .cons _ model _ rest, _, .cons first others, lawful =>
    fieldsLift_cons (lifts model first (lawful _ List.mem_cons_self))
      (fieldsLift rest others fun g mem => lawful g (List.mem_cons_of_mem _ mem))

theorem variantsLift : ∀ (variants : ModelVariants) {gs : List Format}, VariantsMatch variants gs →
    (∀ g ∈ gs, g.Lawful) → VariantsLift variants gs
  | .nil, _, .nil, _ => variantsLift_nil
  | .cons model rest, _, .cons first others, lawful =>
    variantsLift_cons (lifts model first (lawful _ List.mem_cons_self))
      (variantsLift rest others fun g mem => lawful g (List.mem_cons_of_mem _ mem))

end

end Model

end SimpleSerialize
