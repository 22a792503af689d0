/-
Lifting and writing.

A value can be written as a shape, or be lifted into a model of the shape and written as the instance.
Both give the same bytes or fail alike, with one exception: lifting takes a byte string for a sequence
of whatever elements the bytes can be lifted to, while writing takes one only for a sequence of bytes.
`Format.Misplaces` tells the values in which a byte string stands in place of another sequence.  Main
statements:

* `Catalog.compact_of_format`: the standard accessors hold sequences of bytes as byte strings;
* `Model.faithful`: what is lifted is written as the value is, unless that misplaces a byte string;
* `Codec.encode_of_lifted`, `Codec.encode_of_misplaced`: the same of codecs, and a value that is
  refused although it is lifted.
-/
import SimpleSerialize.Proofs.Exposure
import SimpleSerialize.Proofs.TypedRoundTrip
import SimpleSerialize.Proofs.Writing

namespace SimpleSerialize

open Builder

/-! ### Writing with an exception -/

section Refused

variable {α β : Type} {P Q : Prop} {x y : Except EncodeError α}

/-- Two ways to write something give the same, unless the first meets a byte string in place of a
sequence. -/
def SameUnless (P : Prop) (x y : Except EncodeError α) : Prop :=
  x = y ∨ P ∧ ∃ shape, x = .error (.valueMismatch shape "sequence" "bytes")

theorem SameUnless.refl (x : Except EncodeError α) : SameUnless P x x := .inl rfl

theorem SameUnless.imp (h : SameUnless P x y) (step : P → Q) : SameUnless Q x y :=
  Or.imp_right (And.imp_left step) h

theorem SameUnless.bind {next next' : α → Except EncodeError β} (h : SameUnless P x y)
    (rest : ∀ a, SameUnless P (next a) (next' a)) : SameUnless P (x >>= next) (y >>= next') := by
  obtain rfl | ⟨misplaced, shape, rfl⟩ := h
  · cases x with
    | ok a => exact rest a
    | error e => exact .inl rfl
  · exact .inr ⟨misplaced, shape, rfl⟩

namespace Layout

/-- Two children of the same size that are written alike. -/
def ChildUnless (P : Prop) (p q : Option Nat × Except EncodeError Bytes) : Prop :=
  p.1 = q.1 ∧ SameUnless P p.2 q.2

variable {shape : String} {children others : List (Option Nat × Except EncodeError Bytes)}

theorem place_sameUnless (same : List.Forall₂ (ChildUnless P) children others) (position : Nat) :
    SameUnless P (place shape position children) (place shape position others) := by
  induction same generalizing position with
  | nil => exact .refl _
  | @cons p q children others head _ ih =>
    obtain ⟨size, body⟩ := p
    obtain ⟨_, body'⟩ := q
    obtain ⟨rfl, written⟩ := head
    cases size with
    | some width => exact written.bind fun bytes => (ih position).bind fun placed => .refl _
    | none =>
      rw [place, place]
      split
      · exact written.bind fun bytes => (ih _).bind fun placed => .refl _
      · exact .refl _

theorem compose_sameUnless (same : List.Forall₂ (ChildUnless P) children others) :
    SameUnless P (compose shape children) (compose shape others) := by
  have sizes : children.map (·.1) = others.map (·.1) :=
    map_eq_map_iff.mpr (same.imp fun _ _ h => h.1)
  rw [compose, compose, sizes]
  exact (place_sameUnless same _).bind fun placed => .refl _

end Layout

end Refused

/-! ### Byte strings in place of sequences -/

namespace Format

/-- A byte that travels through no link. -/
def IsPlainByte : Format → Prop
  | basic _ a => a.base = .uint 1 ∧ a.links = []
  | _ => False

/-- A byte string stands in the value where the format has a sequence of something else than bytes. -/
inductive Misplaces : Format → Value → Prop
  | here {head : Heading} {a : Handler ListAccessor} {regime : Regime} {element : Format}
    {v : Value} {bs : Bytes} : v.concrete = some (.bytes bs) → ¬element.IsPlainByte →
    Misplaces (list head a regime element) v
  | element {head : Heading} {a : Handler ListAccessor} {regime : Regime} {element : Format}
    {v item : Value} {items : List Value} : v.concrete = some (.list items) → item ∈ items →
    Misplaces element item → Misplaces (list head a regime element) v
  | body {head : Heading} {a : Handler UnionAccessor} {nullable : Bool} {variants : List Format}
    {g : Format} {v w : Value} {selector : UInt32} :
    v.concrete = some (.union selector (some w)) →
    Variant.select nullable variants selector = some (.body g) → Misplaces g w →
    Misplaces (union head a nullable variants) v
  | field {head : Heading} {a : Handler ContainerAccessor} {fields : List Format}
    {size : Option Nat} {g : Format} {v w : Value} {values : List Value} :
    v.concrete = some (.container values) → (g, w) ∈ fields.zip values → Misplaces g w →
    Misplaces (container head a fields size) v

/-- Sequences of bytes are held as byte strings. -/
def Compact : Format → Prop :=
  Everywhere parts fun
    | list _ a _ element => element.IsPlainByte → a.base = .byteSequence
    | _ => True

theorem not_misplaces_uint {f : Format} (n : UInt64) : ¬f.Misplaces (.uint n) := by
  rintro (⟨shown, -⟩ | ⟨shown, -, -⟩ | ⟨shown, -, -⟩ | ⟨shown, -, -⟩) <;> cases shown

end Format

/-! ### The standard accessors -/

namespace Catalog

variable {c : Catalog} {d : Descriptor} {f : Format} {bound : Nat}

/-- Only the declaration of a byte is read as one. -/
theorem byte_of_form {a : BasicAccessor} {s : Schema} {id : ShapeId}
    (byte : a.form s id = .uint 1) : s.declaration? id = some (.basic (.uint 1)) := by
  unfold BasicAccessor.form at byte
  split at byte
  · cases byte
  · rename_i width declared
    rw [declared, UInt8.toNat_inj.mp (BasicForm.uint.inj byte : width.toNat = (1 : UInt8).toNat)]
  · cases byte
  · cases byte
  · cases byte

/-- A format of a plain byte comes of a shape that is declared to be a byte, and not of one that
travels as a byte. -/
theorem byte_of_plainByte {id : ShapeId}
    (h : c.formatBelow bound (c.schema.descriptor id) = .ok f) (plain : f.IsPlainByte) :
    c.schema.declaration? id = some (.basic (.uint 1)) := by
  cases bound with
  | zero => cases h
  | succ bound =>
    obtain ⟨outline, parts, ho, hp, h⟩ := formatBelow_succ_eq_ok.mp h
    cases outline with
    | basic a =>
      cases h
      obtain ⟨base, unlinked⟩ := plain
      rw [Catalog.outline, bind_eq_ok] at ho
      obtain ⟨access, -, ho⟩ := ho
      obtain ⟨⟨accessor, wrappers⟩, rfl⟩ : ∃ w : Wrapped BasicAccessor,
          a = w.basicAt c.schema (c.schema.descriptor id) := by
        split at ho <;> cases ho
        exact ⟨_, rfl⟩
      -- Every wrapper would have left a link.
      cases wrappers with
      | nil =>
        have byte : c.schema.declaration? (c.schema.descriptor id).shape = _ := byte_of_form base
        rwa [Schema.shape_descriptor] at byte
      | cons => cases unlinked
    | list a size element =>
      cases hp with
      | cons =>
        simp only [finish, bind_eq_ok] at h
        obtain ⟨regime, -, h⟩ := h
        cases eq_of_checkFixedSize h
        cases plain
    | union a nullable variants =>
      cases h
      cases plain
    | container a fields =>
      cases eq_of_checkFixedSize h
      cases plain

/-- The accessor of a sequence is the first that supports it and answers to its hint. -/
theorem find?_of_resolve {w : Wrapped ListAccessor}
    (h : c.registry.resolve c.schema d = .ok (.list w)) :
    c.registry.list.find? (Registry.eligible c.schema (c.schema.structural d)) = some w.base := by
  rw [Registry.resolve] at h
  split at h
  · rename_i found
    cases h
    simp only [Registry.direct?, Option.orElse_eq_some, Option.map_eq_some_iff] at found
    obtain ⟨_, -, never⟩ | ⟨-, ⟨a, found, same⟩ | ⟨-, ⟨_, -, never⟩ | ⟨-, _, -, never⟩⟩⟩ := found
    · cases never
    · cases same
      exact found
    · cases never
    · cases never
  · cases h

/-- The accessor for byte strings answers to every hint that the one for all sequences answers to. -/
theorem eligible_byteSequence {element : ShapeId} {rule : SizeRule}
    (declared : c.schema.declaration? d.shape = some (.sequence element rule))
    (byte : c.schema.declaration? element = some (.basic (.uint 1)))
    (eligible : Registry.eligible c.schema d ListAccessor.sequence = true) :
    Registry.eligible c.schema d ListAccessor.byteSequence = true := by
  rw [Registry.eligible, Bool.and_eq_true] at eligible ⊢
  constructor
  · cases hint : d.hint with
    | none => rfl
    | some name =>
      simp only [hint, ShapeAccessor.names_eq, ShapeAccessor.names, List.contains_cons,
        Bool.or_eq_true] at eligible ⊢
      exact .inr eligible.1
  · simp only [ShapeAccessor.supports_eq, ShapeAccessor.supports, declared, byte]
    rfl

/-- Among the standard accessors it comes first, so that it handles all sequences of bytes. -/
theorem byteSequence_of_outline (standard : c.registry = .standard) {a : Handler ListAccessor}
    {size : SizeRule} {element : Descriptor} (ho : c.outline d = .ok (.list a size element)) :
    ∃ id, element = c.schema.descriptor id ∧
      (c.schema.declaration? id = some (.basic (.uint 1)) → a.base = .byteSequence) := by
  rw [Catalog.outline, bind_eq_ok] at ho
  obtain ⟨access, haccess, ho⟩ := ho
  split at ho
  · cases ho
  · rename_i w id rule declared
    cases ho
    refine ⟨id, rfl, fun byte => ?_⟩
    have found := find?_of_resolve haccess
    rw [standard, Registry.standard, List.find?_cons] at found
    split at found
    · exact (Option.some.inj found).symm
    · rename_i other
      have chosen : .sequence = w.base := by
        rw [List.find?_singleton] at found
        split at found
        · exact Option.some.inj found
        · cases found
      have eligible := List.find?_some found
      rw [← chosen] at eligible
      rw [eligible_byteSequence declared byte eligible] at other
      cases other
  · cases ho
  · cases ho
  · cases ho

theorem compact_of_formatBelow (standard : c.registry = .standard)
    (h : c.formatBelow bound d = .ok f) : f.Compact := by
  induction bound generalizing d f with
  | zero => cases h
  | succ bound ih =>
    obtain ⟨outline, parts, ho, hp, h⟩ := formatBelow_succ_eq_ok.mp h
    have inside : ∀ p ∈ parts, p.Compact := forall_right hp fun _ _ => ih
    cases outline with
    | basic a =>
      cases h
      exact .node trivial nofun
    | list a size element =>
      cases hp with
      | cons hp _ =>
        simp only [finish, bind_eq_ok] at h
        obtain ⟨regime, -, h⟩ := h
        obtain rfl := eq_of_checkFixedSize h
        refine .node (fun plain => ?_) (List.forall_mem_singleton.mpr (inside _ List.mem_cons_self))
        obtain ⟨id, rfl, handled⟩ := byteSequence_of_outline standard ho
        exact handled (byte_of_plainByte hp plain)
    | union a nullable variants =>
      cases h
      exact .node trivial inside
    | container a fields =>
      obtain rfl := eq_of_checkFixedSize h
      exact .node trivial inside

/-- The standard accessors hold sequences of bytes as byte strings. -/
theorem compact_of_format (standard : c.registry = .standard) (h : c.format d = .ok f) : f.Compact :=
  compact_of_formatBelow standard h

end Catalog

/-! ### Writing what is shown -/

namespace Format

variable {f g : Format} {head : Heading} {v w : Value}

/-- A value is written as what it shows. -/
theorem encode_of_concrete (shown : v.concrete = some w) : f.encode v = f.encode w := by
  have bare : w.concrete = some w := concrete_of_root? (Value.root?_of_concrete shown)
  have same (name : String) : seen name v = seen name w :=
    (seen_eq_ok.mpr shown).trans (seen_eq_ok.mpr bare).symm
  cases f <;> rw [encode, encode, same]

theorem encode_items {a : Handler ListAccessor} {regime : Regime} {items : List Value}
    (shown : v.concrete = some w) (hitems : a.items w = .ok items) :
    (list head a regime g).encode v = regime.check head.name items.length >>= fun _ =>
      Layout.compose head.name (items.map fun item => (g.fixedSize, g.encode item)) := by
  rw [encode, seen_eq_ok.mpr shown, ok_bind, hitems, ok_bind]

theorem encode_bytes {a : Handler ListAccessor} {regime : Regime} {bs : Bytes}
    (shown : v.concrete = some (.bytes bs)) (base : a.base = .sequence) :
    (list head a regime g).encode v = .error (.valueMismatch a.shape "sequence" "bytes") := by
  rw [encode, seen_eq_ok.mpr shown, ok_bind, Handler.items, base]
  rfl

theorem encode_selected {a : Handler UnionAccessor} {nullable : Bool} {gs : List Format}
    {selector : UInt32} (chosen : Variant.select nullable gs selector = some (.body g)) :
    (union head a nullable gs).encode (.union selector (some w)) =
      g.encode w >>= fun rest => pure (selectorBytes selector ++ rest) := by
  have held : a.selector (.union selector (some w)) = .ok selector :=
    UnionAccessor.selector_eq_ok.mpr ⟨_, rfl⟩
  have body : bodyOf head.name (a.body? (.union selector (some w))) = .ok w :=
    bodyOf_eq_ok.mpr rfl
  rw [encode, seen_eq_ok.mpr rfl, ok_bind, held, ok_bind, encoders_eq, Variant.select_map, chosen]
  simp only [Option.map_some, Variant.map, body, ok_bind]

end Format

/-! ### Lifting -/

/-- What passes a check is what was to be checked. -/
theorem of_guard {ε α : Type} {p : Prop} [Decidable p] {x : Except ε α} {e : ε} {a : α}
    (h : (if p then x else .error e) = .ok a) : p ∧ x = .ok a := by
  split at h
  · exact ⟨‹_›, h⟩
  · cases h

theorem Exactly.items_of_ofList? {α : Type} {n : Nat} {items : List α} {xs : Exactly α n}
    (h : ofList? n items = .ok xs) : items = xs.items := by
  unfold ofList? at h
  split at h <;> cases h
  rfl

theorem UpTo.items_of_ofList? {α : Type} {n : Nat} {items : List α} {xs : UpTo α n}
    (h : ofList? n items = .ok xs) : items = xs.items := by
  unfold ofList? at h
  split at h <;> cases h
  rfl

namespace Model

/-- What the model lifts is written in the format as the value is, unless that misplaces a byte
string. -/
def Faithful (m : Model) (f : Format) : Prop :=
  ∀ v x, m.lift v = .ok x → SameUnless (f.Misplaces v) (f.encode v) (f.encode (m.lower x))

/-- The same of the fields of a record, one by one. -/
def FieldsFaithful (fields : ModelFields) (gs : List Format) : Prop :=
  ∀ name values xs, values.length = fields.length → liftFields name fields values = .ok xs →
    Aligned (fun g v w => SameUnless (g.Misplaces v) (g.encode v) (g.encode w)) gs values
      (lowerFields fields xs)

/-- The same of the body of whatever variant of a choice is lifted. -/
def VariantsFaithful (variants : ModelVariants) (gs : List Format) : Prop :=
  ∀ name start i v x, liftVariant name variants i v = .ok x → ∃ g w, gs[i]? = some g ∧
    lowerVariant variants start x = .union (UInt32.ofNat (start + i)) (some w) ∧
    SameUnless (g.Misplaces v) (g.encode v) (g.encode w)

/-! #### Basic models -/

section Basic

variable {head : Heading} {a : Handler BasicForm}

theorem faithful_bool : Faithful .bool (.basic head a) := by
  intro v x lifted
  cases v with
  | bool b =>
    cases lifted
    exact .refl _
  | _ => cases lifted

/-- A number is written as such, in whichever of the two forms it is held. -/
theorem encode_word {width : Nat} (base : a.base = .uint width) (n : UInt64) :
    (Format.basic head a).encode (.uint n) = BasicForm.encodeInteger a.shape width n.toNat := by
  change a.base.encode a.shape (.uint n) = _
  rw [base]
  rfl

theorem encode_number {width : Nat} (base : a.base = .uint width) (n : Nat) :
    (Format.basic head a).encode (.bigUint n) = BasicForm.encodeInteger a.shape width n := by
  change a.base.encode a.shape (.bigUint n) = _
  rw [base]
  rfl

theorem encode_lowerWord {size : WordSize} (base : a.base = .uint size.bytes)
    (x : Fin (LittleEndian.capacity size.bytes)) :
    (Format.basic head a).encode (lowerWord size x) =
      BasicForm.encodeInteger a.shape size.bytes x.val := by
  rcases Nat.lt_or_ge 8 size.bytes with wide | narrow
  · obtain rfl := eq_sixteen wide
    exact encode_number base x.val
  · have small : x.val < 2 ^ 64 := Nat.lt_of_lt_of_le x.isLt (LittleEndian.capacity_mono narrow)
    rw [lowerWord_narrow narrow, encode_word base, UInt64.toNat_ofNat_of_lt' small]

theorem val_of_liftWord {size : WordSize} {n : Nat} {x : Fin (LittleEndian.capacity size.bytes)}
    (h : liftWord size n = .ok x) : x.val = n := by
  unfold liftWord at h
  dsimp only at h
  split at h
  · cases h
    rfl
  · cases h

theorem faithful_uint {size : WordSize} (base : a.base = .uint size.bytes) :
    Faithful (.uint size) (.basic head a) := by
  intro v (x : Fin _) lifted
  refine .inl (Eq.trans ?_ (encode_lowerWord base x).symm)
  cases v with
  | uint n => rw [encode_word base, val_of_liftWord ((lift_word size n).symm.trans lifted)]
  | bigUint n =>
    obtain rfl : size = .sixteen := by
      cases size with
      | sixteen => rfl
      | _ => cases lifted
    have held : liftWord .sixteen n = .ok x := lifted
    rw [encode_number base, val_of_liftWord held]
  | _ => cases size <;> cases lifted

theorem faithful_uint256 (base : a.base = .uint 32) : Faithful .uint256 (.basic head a) := by
  intro v (x : Nat) lifted
  refine .inl (Eq.trans ?_ (encode_number base x).symm)
  cases v with
  | uint n =>
    cases lifted
    exact encode_word base n
  | bigUint n =>
    have held : (if n < LittleEndian.capacity 32 then .ok n else .error _) = Except.ok x := lifted
    obtain ⟨-, same⟩ := of_guard held
    rw [encode_number base, Except.ok.inj same]
  | _ => cases lifted

theorem faithful_bytes {length : UInt32} : Faithful (.bytes length) (.basic head a) := by
  intro v (x : FixedBytes _) lifted
  cases v with
  | bytes bs =>
    have held := FixedBytes.ofBytes?_eq_ok.mp (mapError_eq_ok.mp lifted)
    exact .inl (congrArg _ (congrArg Value.bytes held))
  | _ => cases lifted

end Basic

/-! #### Composite models -/

section Composite

variable {head : Heading} {g : Format} {gs : List Format} {element : Model} {v : Value}

section Sequence

variable {a : Handler ListAccessor} {regime : Regime}

theorem concrete_of_elements {name : String} {items : List Value} (h : elements name v = .ok items) :
    v.concrete = some (.list items) ∨
      ∃ bs, v.concrete = some (.bytes bs) ∧ items = bs.map fun b => .uint b.toUInt64 := by
  unfold elements at h
  split at h
  · cases h
    exact .inl ‹_›
  · cases h
    exact .inr ⟨_, ‹_›, rfl⟩
  · cases h

/-- Items that are lifted one by one are written as their sequence is. -/
theorem Faithful.items (inner : element.Faithful g) {items : List Value}
    {xs : List element.Instance} {P : Prop}
    (lifted : List.Forall₂ (fun item x => element.lift item = .ok x) items xs)
    (below : ∀ item ∈ items, g.Misplaces item → P) :
    SameUnless P (regime.check head.name items.length >>= fun _ =>
        Layout.compose head.name (items.map fun item => (g.fixedSize, g.encode item)))
      ((Format.list head a regime g).encode (.list (xs.map fun x => element.lower x))) := by
  have held : a.items (.list (xs.map fun x => element.lower x)) = .ok _ :=
    ListAccessor.items_eq_ok.mpr (.inl rfl)
  rw [Format.encode_items rfl held, List.length_map, lifted.length_eq]
  refine (SameUnless.refl _).bind fun _ => Layout.compose_sameUnless ?_
  rw [List.map_map, List.forall₂_map_left_iff, List.forall₂_map_right_iff]
  clear held
  induction lifted with
  | nil => exact .nil
  | @cons item x items xs lifted _ ih =>
    refine .cons ⟨rfl, (inner item x lifted).imp (below item List.mem_cons_self)⟩ ?_
    exact ih fun item mem => below item (List.mem_cons_of_mem _ mem)

theorem Faithful.sequence (inner : element.Faithful g)
    (compact : (Format.list head a regime g).Compact) {name : String} {xs : List element.Instance}
    (lifted : (elements name v >>= fun items => items.mapM fun item => element.lift item) = .ok xs) :
    SameUnless ((Format.list head a regime g).Misplaces v) ((Format.list head a regime g).encode v)
      ((Format.list head a regime g).encode (.list (xs.map fun x => element.lower x))) := by
  obtain ⟨items, found, each⟩ := bind_eq_ok.mp lifted
  have each := mapM_eq_ok.mp each
  obtain shown | ⟨bs, shown, rfl⟩ := concrete_of_elements found
  · rw [Format.encode_items shown (ListAccessor.items_eq_ok.mpr (.inl rfl))]
    exact inner.items each fun item mem misplaced => .element shown mem misplaced
  · cases base : a.base with
    | byteSequence =>
      have held : a.items (.bytes bs) = .ok _ :=
        ListAccessor.items_eq_ok.mpr (.inr ⟨base, bs, rfl, rfl⟩)
      rw [Format.encode_items shown held]
      refine inner.items each fun item mem misplaced => ?_
      obtain ⟨b, -, rfl⟩ := List.mem_map.mp mem
      exact absurd misplaced (Format.not_misplaces_uint _)
    | sequence =>
      refine .inr ⟨.here shown fun plain => ?_, a.shape, Format.encode_bytes shown base⟩
      cases base.symm.trans (compact.here plain)

theorem faithful_list (inner : element.Faithful g)
    (compact : (Format.list head a regime g).Compact) :
    Faithful (.list element) (.list head a regime g) :=
  fun _ _ lifted => inner.sequence compact lifted

theorem faithful_sizedVector {length : String} (inner : element.Faithful g)
    (compact : (Format.list head a regime g).Compact) :
    Faithful (.sizedVector element length) (.list head a regime g) :=
  fun _ _ lifted => inner.sequence compact lifted

theorem faithful_sizedList {limit : String} (inner : element.Faithful g)
    (compact : (Format.list head a regime g).Compact) :
    Faithful (.sizedList element limit) (.list head a regime g) :=
  fun _ _ lifted => inner.sequence compact lifted

theorem faithful_vector {length : UInt64} (inner : element.Faithful g)
    (compact : (Format.list head a regime g).Compact) :
    Faithful (.vector element length) (.list head a regime g) := by
  intro v (xs : Exactly _ _) lifted
  obtain ⟨items, found, lifted⟩ := bind_eq_ok.mp lifted
  obtain ⟨ys, each, counted⟩ := bind_eq_ok.mp lifted
  obtain rfl : ys = xs.items := Exactly.items_of_ofList? (mapError_eq_ok.mp counted)
  exact inner.sequence compact (bind_eq_ok.mpr ⟨items, found, each⟩)

theorem faithful_boundedList {limit : UInt64} (inner : element.Faithful g)
    (compact : (Format.list head a regime g).Compact) :
    Faithful (.boundedList element limit) (.list head a regime g) := by
  intro v (xs : UpTo _ _) lifted
  obtain ⟨items, found, lifted⟩ := bind_eq_ok.mp lifted
  obtain ⟨ys, each, counted⟩ := bind_eq_ok.mp lifted
  obtain rfl : ys = xs.items := UpTo.items_of_ofList? (mapError_eq_ok.mp counted)
  exact inner.sequence compact (bind_eq_ok.mpr ⟨items, found, each⟩)

end Sequence

section Union

variable {a : Handler UnionAccessor} {variants : ModelVariants} {nullable : Bool}

theorem selected_eq_ok {name : String} {selector : UInt32} {body : Option Value}
    (h : selected name v = .ok (selector, body)) : v.concrete = some (.union selector body) := by
  unfold selected at h
  split at h
  · cases h
    assumption
  · cases h

/-- The body that a union selects is lifted and written under the same selector. -/
theorem sameUnless_body {selector : UInt32} {w w' : Value}
    (shown : v.concrete = some (.union selector (some w)))
    (chosen : Variant.select nullable gs selector = some (.body g))
    (below : SameUnless (g.Misplaces w) (g.encode w) (g.encode w')) :
    SameUnless ((Format.union head a nullable gs).Misplaces v)
      ((Format.union head a nullable gs).encode v)
      ((Format.union head a nullable gs).encode (.union selector (some w'))) := by
  rw [Format.encode_of_concrete shown, Format.encode_selected chosen, Format.encode_selected chosen]
  exact (below.imp (.body shown chosen)).bind fun rest => .refl _

theorem faithful_option (inner : element.Faithful g) :
    Faithful (.option element) (.union head a true [g]) := by
  intro v (x : Option element.Instance) lifted
  obtain ⟨⟨selector, body⟩, found, lifted⟩ := bind_eq_ok.mp lifted
  have shown := selected_eq_ok found
  cases body with
  | none =>
    obtain ⟨rfl, same⟩ := of_guard lifted
    cases same
    exact .inl (Format.encode_of_concrete shown)
  | some w =>
    obtain ⟨rfl, lifted⟩ := of_guard lifted
    obtain ⟨y, below, same⟩ := bind_eq_ok.mp lifted
    cases same
    exact sameUnless_body shown rfl (inner w y below)

/-- The body of a variant is lifted and written under the selector that it was found under. -/
theorem VariantsFaithful.body (each : VariantsFaithful variants gs) {name : String}
    {selector : UInt32} {w : Value} {i : Nat} {x : ChoiceInstance variants}
    (shown : v.concrete = some (.union selector (some w)))
    (place : selector.toNat = nullable.toNat + i) (lifted : liftVariant name variants i w = .ok x) :
    SameUnless ((Format.union head a nullable gs).Misplaces v)
      ((Format.union head a nullable gs).encode v)
      ((Format.union head a nullable gs).encode (lowerVariant variants nullable.toNat x)) := by
  obtain ⟨g, w', here, lowered, below⟩ := each name nullable.toNat i w x lifted
  rw [lowered, ← place, UInt32.ofNat_toNat]
  exact sameUnless_body shown (Variant.select_eq_body.mpr ⟨i, place, here⟩) below

theorem faithful_nullableChoice {name : String} (each : VariantsFaithful variants gs) :
    Faithful (.choice name true variants) (.union head a true gs) := by
  intro v (x : Option (ChoiceInstance variants)) lifted
  obtain ⟨⟨selector, body⟩, found, lifted⟩ := bind_eq_ok.mp lifted
  have shown := selected_eq_ok found
  cases body with
  | none =>
    obtain ⟨rfl, same⟩ := of_guard lifted
    cases same
    exact .inl (Format.encode_of_concrete shown)
  | some w =>
    by_cases zero : selector = 0
    · cases (if_pos zero).symm.trans lifted
    · obtain ⟨y, below, same⟩ := bind_eq_ok.mp ((if_neg zero).symm.trans lifted)
      cases same
      have positive : 0 < selector.toNat :=
        Nat.pos_of_ne_zero fun same => zero (UInt32.toNat_inj.mp same)
      exact each.body shown (Nat.add_sub_cancel' positive).symm below

theorem faithful_choice {name : String} (each : VariantsFaithful variants gs) :
    Faithful (.choice name false variants) (.union head a false gs) := by
  intro v (x : ChoiceInstance variants) lifted
  obtain ⟨⟨selector, body⟩, found, lifted⟩ := bind_eq_ok.mp lifted
  cases body with
  | none => cases lifted
  | some w => exact each.body (selected_eq_ok found) (Nat.zero_add _).symm lifted

theorem variantsFaithful_nil : VariantsFaithful .nil [] := by
  intro name start i v x
  exact nomatch x

theorem variantsFaithful_cons (first : element.Faithful g) (rest : VariantsFaithful variants gs) :
    VariantsFaithful (.cons element variants) (g :: gs) := by
  intro name start i v (x : element.Instance ⊕ ChoiceInstance variants) lifted
  cases i with
  | zero =>
    obtain ⟨y, below, same⟩ := bind_eq_ok.mp lifted
    cases same
    exact ⟨g, element.lower y, rfl, rfl, first v y below⟩
  | succ i =>
    -- The other variants count from the next selector.
    obtain ⟨y, below, same⟩ := bind_eq_ok.mp lifted
    cases same
    obtain ⟨f, w, here, lowered, alike⟩ := rest name (start + 1) i v y below
    rw [Nat.add_right_comm] at lowered
    exact ⟨f, w, here, lowered, alike⟩

end Union

section Container

variable {a : Handler ContainerAccessor} {size : Option Nat} {fields : ModelFields}

theorem fieldsOf_eq_ok {name : String} {count : Nat} {values : List Value}
    (h : fieldsOf name count v = .ok values) :
    v.concrete = some (.container values) ∧ values.length = count := by
  unfold fieldsOf at h
  split at h
  · obtain ⟨arity, same⟩ := of_guard h
    cases same
    exact ⟨‹_›, arity⟩
  · cases h

/-- Fields that are written alike are laid out alike. -/
theorem childUnless_fields {P : Prop} {values others : List Value}
    (alike : Aligned (fun g v w => SameUnless (g.Misplaces v) (g.encode v) (g.encode w)) gs values
      others) (below : ∀ g v, (g, v) ∈ gs.zip values → g.Misplaces v → P) :
    List.Forall₂ (fun p q => Layout.ChildUnless P (p.1.fixedSize, p.1.encode p.2)
      (q.1.fixedSize, q.1.encode q.2)) (gs.zip values) (gs.zip others) := by
  induction alike with
  | nil => exact .nil
  | @cons g v w gs values others first _ ih =>
    refine .cons ⟨rfl, first.imp (below g v List.mem_cons_self)⟩ ?_
    exact ih fun g v mem => below g v (List.mem_cons_of_mem _ mem)

theorem faithful_record {name : String} (each : FieldsFaithful fields gs) :
    Faithful (.record name fields) (.container head a gs size) := by
  intro v (xs : RecordInstance fields) lifted
  obtain ⟨values, found, lifted⟩ := bind_eq_ok.mp lifted
  obtain ⟨shown, arity⟩ := fieldsOf_eq_ok found
  have alike := each name values xs arity lifted
  have has : (Format.container head a gs size).Children v (gs.zip values) :=
    .container shown (ContainerAccessor.fieldsOf_eq_ok.mpr rfl) alike.length_left
  have again : (Format.container head a gs size).Children (.container (lowerFields fields xs))
      (gs.zip (lowerFields fields xs)) :=
    .container rfl (ContainerAccessor.fieldsOf_eq_ok.mpr rfl) alike.length_right
  change SameUnless _ _ ((Format.container head a gs size).encode (.container (lowerFields fields xs)))
  rw [Format.encode_of_children has, Format.encode_of_children again]
  refine Layout.compose_sameUnless ?_
  rw [List.forall₂_map_left_iff, List.forall₂_map_right_iff]
  exact childUnless_fields alike fun g w mem misplaced => .field shown mem misplaced

theorem fieldsFaithful_nil : FieldsFaithful .nil [] := by
  intro name values xs arity lifted
  obtain rfl := List.length_eq_zero_iff.mp arity
  exact .nil

theorem fieldsFaithful_cons {name : String} {hint : Option String} (first : element.Faithful g)
    (rest : FieldsFaithful fields gs) : FieldsFaithful (.cons name element hint fields) (g :: gs) := by
  intro record values (xs : element.Instance × RecordInstance fields) arity lifted
  cases values with
  | nil => cases arity
  | cons v values =>
    obtain ⟨y, here, lifted⟩ := bind_eq_ok.mp lifted
    obtain ⟨ys, others, same⟩ := bind_eq_ok.mp lifted
    cases same
    exact .cons (first v y here) (rest record values ys (Nat.succ.inj arity) others)

end Container

end Composite

/-! #### Every model -/

mutual

/-- Whatever a model lifts is written in a format of its structure as the value is, unless that
misplaces a byte string. -/
theorem faithful : ∀ (m : Model) {f : Format}, m.Matches f → f.Compact → m.Faithful f
  | .bool, _, .bool _, _ => faithful_bool
  | .uint _, _, .uint form, _ => faithful_uint form
  | .uint256, _, .uint256 form, _ => faithful_uint256 form
  | .bytes _, _, .bytes _, _ => faithful_bytes
  | .list element, _, .list _ _ inside, compact =>
    faithful_list (faithful element inside (compact.inside _ List.mem_cons_self)) compact
  | .option body, _, .option _ _ inside, compact =>
    faithful_option (faithful body inside (compact.inside _ List.mem_cons_self))
  | .vector element _, _, .vector _ _ _ inside, compact =>
    faithful_vector (faithful element inside (compact.inside _ List.mem_cons_self)) compact
  | .boundedList element _, _, .boundedList _ _ _ inside, compact =>
    faithful_boundedList (faithful element inside (compact.inside _ List.mem_cons_self)) compact
  | .sizedVector element _, _, .sizedVector _ _ _ inside, compact =>
    faithful_sizedVector (faithful element inside (compact.inside _ List.mem_cons_self)) compact
  | .sizedList element _, _, .sizedList _ _ _ inside, compact =>
    faithful_sizedList (faithful element inside (compact.inside _ List.mem_cons_self)) compact
  | .newtype _ inner _, _, .newtype inside, compact => faithful inner inside compact
  | .record _ fields, _, .record _ _ _ inside, compact =>
    faithful_record (fieldsFaithful fields inside compact.inside)
  | .choice _ true variants, _, .choice _ _ inside, compact =>
    faithful_nullableChoice (variantsFaithful variants inside compact.inside)
  | .choice _ false variants, _, .choice _ _ inside, compact =>
    faithful_choice (variantsFaithful variants inside compact.inside)

theorem fieldsFaithful : ∀ (fields : ModelFields) {gs : List Format}, FieldsMatch fields gs →
    (∀ g ∈ gs, g.Compact) → FieldsFaithful fields gs
  | .nil, _, .nil, _ => fieldsFaithful_nil
  | .cons _ model _ rest, _, .cons first others, compact =>
    fieldsFaithful_cons (faithful model first (compact _ List.mem_cons_self))
      (fieldsFaithful rest others fun g mem => compact g (List.mem_cons_of_mem _ mem))

theorem variantsFaithful : ∀ (variants : ModelVariants) {gs : List Format},
    VariantsMatch variants gs → (∀ g ∈ gs, g.Compact) → VariantsFaithful variants gs
  | .nil, _, .nil, _ => variantsFaithful_nil
  | .cons model rest, _, .cons first others, compact =>
    variantsFaithful_cons (faithful model first (compact _ List.mem_cons_self))
      (variantsFaithful rest others fun g mem => compact g (List.mem_cons_of_mem _ mem))

end

end Model

/-! ### Codecs -/

namespace Codec

variable {catalog : Catalog} {hasher : Hasher} {c c' : Codec} {shape : ShapeId} {m : Model}
  {f : Format}

/-- With the standard accessors, an instance of a registered model is written as the value that it was
lifted from, or refused as the value is; only where the value has a byte string in place of another
sequence it can be refused for that, although it was lifted. -/
theorem encode_of_lifted {log : List (Request × ShapeId)} {b : Builder} (reached : Reached log b)
    (built : b.build = .ok catalog.schema) (registered : (.register m, shape) ∈ log)
    (standard : catalog.registry = .standard)
    (resolved : catalog.format (catalog.schema.descriptor shape) = .ok f)
    (session : Session catalog hasher c) (session' : Session catalog hasher c') {v : Value}
    {x : m.Instance} (lifted : m.lift v = .ok x) :
    ((encode shape v).run c).1 = ((encodeModel m x).run c').1 ∨
      f.Misplaces v ∧ ∃ name, ((encode shape v).run c).1 =
        .error (.encode (.valueMismatch name "sequence" "bytes")) := by
  obtain ⟨wf, declared⟩ := reached.declaredIn built registered
  have compact : f.Compact := Catalog.compact_of_format standard resolved
  have structural : m.Matches f := by
    rw [Catalog.format, ← Schema.use_none] at resolved
    exact m.matches_of_format wf declared (declared.sameTarget wf) resolved
  rw [encodeModel, run_withShapeOf session' (declared.require_eq wf), encode, encode,
    run_withFormat session resolved, run_withFormat session' resolved]
  obtain alike | ⟨misplaced, name, refused⟩ := m.faithful structural compact v x lifted
  · exact .inl (congrArg (·.mapError CodecError.encode) alike)
  · exact .inr ⟨misplaced, name, congrArg (·.mapError CodecError.encode) refused⟩

/-- A byte string is lifted to a list of bytes, and both are the same bytes. -/
theorem encode_of_lifted_bytes :
    let m : Model := .list (.uint .one)
    let rows : List Entry := [⟨"uint8", .basic (.uint 1)⟩, ⟨"List[uint8]", .sequence 0 .unbounded⟩]
    let c : Codec := { catalog := { schema := { entries := rows } } }
    let v : Value := .bytes [1, 2, 3]
    ∃ x, m.lift v = .ok x ∧ ((encode 1 v).run c).1 = .ok [1, 2, 3] ∧
      ((encodeModel m x).run c).1 = .ok [1, 2, 3] := by
  intro m rows c v
  have reached : Reached [(.register m, 1)] ⟨c.catalog.schema, none⟩ :=
    .call (.register m) .start nofun
  obtain ⟨f, resolved⟩ : ∃ f, c.catalog.format (c.catalog.schema.descriptor 1) = .ok f := ⟨_, rfl⟩
  obtain ⟨x, lifted⟩ : ∃ x, m.lift v = .ok x := ⟨_, rfl⟩
  have encoded : ((encode 1 v).run c).1 = .ok [1, 2, 3] := by decide +kernel
  refine ⟨x, lifted, encoded, ?_⟩
  obtain same | ⟨-, name, refused⟩ :=
    encode_of_lifted reached rfl List.mem_cons_self rfl resolved .start .start lifted
  · exact same.symm.trans encoded
  · cases refused.symm.trans encoded

/-- Three bytes are no list of numbers, but they are lifted to one. -/
theorem encode_of_misplaced :
    let m : Model := .list (.uint .eight)
    let rows : List Entry := [⟨"uint64", .basic (.uint 8)⟩, ⟨"List[uint64]", .sequence 0 .unbounded⟩]
    let c : Codec := { catalog := { schema := { entries := rows } } }
    let v : Value := .bytes [1, 2]
    Reached [(.register m, 1)] ⟨c.catalog.schema, none⟩ ∧ c.catalog.registry = .standard ∧
      (∃ x, m.lift v = .ok x ∧
        ((encodeModel m x).run c).1 = .ok [1, 0, 0, 0, 0, 0, 0, 0, 2, 0, 0, 0, 0, 0, 0, 0]) ∧
      ((encode 1 v).run c).1 =
        .error (.encode (.valueMismatch "List[uint64]" "sequence" "bytes")) := by
  intro m rows c v
  refine ⟨.call (.register m) .start nofun, rfl, ?_, by decide +kernel⟩
  obtain ⟨x, lifted⟩ : ∃ x, m.lift v = .ok x := ⟨_, rfl⟩
  refine ⟨x, lifted, ?_⟩
  cases lifted
  decide +kernel

end Codec

end SimpleSerialize
