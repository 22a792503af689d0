/-
Answers that agree.

Two answers agree if both are the same result, or both are errors of one kind: the shape that an
error names, and whatever else it says, is left aside.  Two formats agree on a value if the answers
to everything that is asked about the value do.  A node agrees with another of the same category
whose name, use and links may be others, if their parts agree.  Main statements:

* `AgreeUpTo.bind`, `AgreeUpTo.mapM`: computations agree if their steps do;
* `Layout.compose_agree`: so do layouts of children that agree;
* `Format.agreesOn_basic`, `agreesOn_list`, `agreesOn_union`, `agreesOn_container`: so do nodes.
-/
import SimpleSerialize.Proofs.Walk

namespace SimpleSerialize

/-! ### Kinds of errors -/

/-- The kind of an error, without the shape that it names and the data that go with it. -/
def SchemaError.kind : SchemaError → String
  | unsupported _ _ _ => "unsupported"
  | unboundVariable _ _ => "unbound variable"
  | unknownShape _ => "unknown shape"
  | conflictingDeclaration _ => "conflicting declaration"
  | emptyVector _ => "empty vector"
  | sizeOverflow _ => "size overflow"

def EncodeError.kind : EncodeError → String
  | vectorLength _ _ => "vector length"
  | maxSize _ _ => "max size"
  | byteWidth _ _ => "byte width"
  | integerOverflow _ _ => "integer overflow"
  | valueMismatch _ _ _ => "value mismatch"
  | unionSelector _ _ => "union selector"
  | pruned _ => "pruned"
  | rangeOutOfBounds _ _ _ _ => "range out of bounds"

def DecodeError.kind : DecodeError → String
  | truncated _ _ _ => "truncated"
  | trailing _ _ => "trailing"
  | malformedOffset _ _ _ _ => "malformed offset"
  | unionSelector _ _ => "union selector"
  | invalidBasic _ _ => "invalid basic"
  | maxSize _ _ => "max size"
  | rejected _ _ => "rejected"
  | modelMismatch _ _ _ => "model mismatch"

/-- The stage that failed, and the kind of its error. -/
def CodecError.kind : CodecError → String × String
  | schema e => ("schema", e.kind)
  | encode e => ("encode", e.kind)
  | decode e => ("decode", e.kind)

/-! ### Answers -/

variable {ε ε' κ κ' α β γ δ : Type} {kind : ε → κ}

/-- Two answers are the same result, or errors of one kind. -/
inductive AgreeUpTo (kind : ε → κ) : Except ε α → Except ε α → Prop
  | ok (a : α) : AgreeUpTo kind (.ok a) (.ok a)
  | error {e e' : ε} : kind e = kind e' → AgreeUpTo kind (.error e) (.error e')

namespace AgreeUpTo

@[refl] theorem refl (x : Except ε α) : AgreeUpTo kind x x := by
  cases x with
  | ok a => exact .ok a
  | error e => exact .error rfl

theorem symm {x y : Except ε α} (h : AgreeUpTo kind x y) : AgreeUpTo kind y x := by
  cases h with
  | ok a => exact .ok a
  | error same => exact .error same.symm

/-- Where one answer is a result, so is the other. -/
theorem trans {x y z : Except ε α} (h : AgreeUpTo kind x y) (h' : AgreeUpTo kind y z) :
    AgreeUpTo kind x z := by
  cases h with
  | ok a => exact h'
  | error same =>
    cases h' with
    | error same' => exact .error (same.trans same')

theorem ok_iff {x y : Except ε α} {a : α} (h : AgreeUpTo kind x y) : x = .ok a ↔ y = .ok a := by
  cases h with
  | ok => exact Iff.rfl
  | error => exact ⟨fun h => (nomatch h), fun h => (nomatch h)⟩

theorem bind_of_ok {x y : Except ε α} {next next' : α → Except ε β} (first : AgreeUpTo kind x y)
    (rest : ∀ a, x = .ok a → AgreeUpTo kind (next a) (next' a)) :
    AgreeUpTo kind (x >>= next) (y >>= next') := by
  cases first with
  | ok a => exact rest a rfl
  | error same => exact .error same

theorem bind {x y : Except ε α} {next next' : α → Except ε β} (first : AgreeUpTo kind x y)
    (rest : ∀ a, AgreeUpTo kind (next a) (next' a)) :
    AgreeUpTo kind (x >>= next) (y >>= next') :=
  first.bind_of_ok fun a _ => rest a

theorem mapM {step : α → Except ε γ} {step' : β → Except ε γ} {as : List α} {bs : List β}
    (each : List.Forall₂ (fun a b => AgreeUpTo kind (step a) (step' b)) as bs) :
    AgreeUpTo kind (as.mapM step) (bs.mapM step') := by
  induction each with
  | nil => exact .refl _
  | cons head _ ih =>
    rw [List.mapM_cons, List.mapM_cons]
    exact head.bind fun _ => ih.bind fun _ => .refl _

/-- Answers that are chosen by the same condition. -/
theorem ite {p : Prop} [Decidable p] {x y x' y' : Except ε α} (yes : AgreeUpTo kind x y)
    (no : AgreeUpTo kind x' y') : AgreeUpTo kind (if p then x else x') (if p then y else y') := by
  split
  · exact yes
  · exact no

theorem mapError {kind' : ε' → κ'} {x y : Except ε α} {g : ε → ε'} (h : AgreeUpTo kind x y)
    (keeps : ∀ e e', kind e = kind e' → kind' (g e) = kind' (g e')) :
    AgreeUpTo kind' (x.mapError g) (y.mapError g) := by
  cases h with
  | ok a => exact .ok a
  | error same => exact .error (keeps _ _ same)

end AgreeUpTo

/-- A failure to write or hash a value keeps its kind among the failures of the codec. -/
theorem AgreeUpTo.codec {x y : Except EncodeError α} (h : AgreeUpTo EncodeError.kind x y) :
    AgreeUpTo CodecError.kind (x.mapError .encode) (y.mapError .encode) :=
  h.mapError fun _ _ same => congrArg (Prod.mk "encode") same

/-! ### Lists related one by one -/

theorem getElem?_rel {R : α → β → Prop} {as : List α} {bs : List β} (h : List.Forall₂ R as bs)
    (i : Nat) : (as[i]? = none ∧ bs[i]? = none) ∨
      ∃ a b, R a b ∧ as[i]? = some a ∧ bs[i]? = some b := by
  induction h generalizing i with
  | nil => exact .inl ⟨rfl, rfl⟩
  | cons head _ ih =>
    cases i with
    | zero => exact .inr ⟨_, _, head, rfl, rfl⟩
    | succ i => exact ih i

/-- Entries stay related if both are paired with the same. -/
theorem zip_rel {R : α → β → Prop} {as : List α} {bs : List β} (h : List.Forall₂ R as bs)
    (cs : List γ) : List.Forall₂ (fun p q => R p.1 q.1 ∧ p.2 = q.2) (as.zip cs) (bs.zip cs) := by
  induction h generalizing cs with
  | nil => exact .nil
  | cons head _ ih =>
    cases cs with
    | nil => exact .nil
    | cons c cs => exact .cons ⟨head, rfl⟩ (ih cs)

/-- Leaving entries out of one of two lists leaves out the pairs that they are in. -/
theorem take_zip_eq (n : Nat) (as : List α) (bs : List β) :
    (as.take n).zip bs = (as.zip bs).take n := by
  induction n generalizing as bs with
  | zero => rw [List.take_zero, List.take_zero, List.zip_nil_left]
  | succ n ih =>
    cases as with
    | nil => rfl
    | cons a as =>
      cases bs with
      | nil => rfl
      | cons b bs => exact congrArg _ (ih as bs)

/-- What a selector stands for among variants that are related one by one. -/
theorem Variant.select_rel {R : α → β → Prop} {as : List α} {bs : List β}
    (h : List.Forall₂ R as bs) (nullable : Bool) (selector : UInt32) :
    (select nullable as selector = none ∧ select nullable bs selector = none) ∨
    (select nullable as selector = some .empty ∧ select nullable bs selector = some .empty) ∨
    ∃ a b, R a b ∧ select nullable as selector = some (.body a) ∧
      select nullable bs selector = some (.body b) := by
  have entry (i : Nat) : (as[i]?.map body = none ∧ bs[i]?.map body = none) ∨
      ∃ a b, R a b ∧ as[i]?.map body = some (.body a) ∧ bs[i]?.map body = some (.body b) := by
    rcases getElem?_rel h i with ⟨left, right⟩ | ⟨a, b, rel, left, right⟩
    · exact .inl (by rw [left, right]; exact ⟨rfl, rfl⟩)
    · exact .inr ⟨a, b, rel, by rw [left]; rfl, by rw [right]; rfl⟩
  rw [select, select]
  split
  · split
    · exact .inr (.inl ⟨rfl, rfl⟩)
    · exact (entry _).imp id .inr
  · exact (entry _).imp id .inr

/-! ### Layouts -/

namespace Layout

variable {shape shape' : String} {children children' : List (Option Nat × Except EncodeError Bytes)}

/-- Children of the same sizes whose bytes agree. -/
def Agreeing (children children' : List (Option Nat × Except EncodeError Bytes)) : Prop :=
  List.Forall₂ (fun c c' => c.1 = c'.1 ∧ AgreeUpTo EncodeError.kind c.2 c'.2) children children'

theorem place_agree (each : Agreeing children children') (position : Nat) :
    AgreeUpTo EncodeError.kind (place shape position children)
      (place shape' position children') := by
  induction each generalizing position with
  | nil => exact .ok _
  | @cons c c' _ _ head _ ih =>
    obtain ⟨size, body⟩ := c
    obtain ⟨size', body'⟩ := c'
    obtain ⟨same, head⟩ := head
    obtain rfl : size = size' := same
    cases size with
    | some width =>
      rw [place, place]
      exact head.bind fun _ => (ih position).bind fun _ => .refl _
    | none =>
      rw [place, place]
      split
      · exact head.bind fun bytes => (ih (position + bytes.length)).bind fun _ => .refl _
      · exact .error rfl

/-- Composites agree if their children do. -/
theorem compose_agree (each : Agreeing children children') :
    AgreeUpTo EncodeError.kind (compose shape children) (compose shape' children') := by
  have sizes : children.map (·.1) = children'.map (·.1) := by
    induction each with
    | nil => rfl
    | cons head _ ih => exact congrArg₂ List.cons head.1 ih
  rw [compose, compose, sizes]
  exact (place_agree each _).bind fun _ => .refl _

end Layout

/-! ### Reading under another name -/

theorem Regime.checkLimit_agree {shape shape' : String} {count : Nat} (regime : Regime) :
    AgreeUpTo DecodeError.kind (regime.checkLimit shape count)
      (regime.checkLimit shape' count) := by
  rcases regime with length | (_ | limit)
  · exact .ok _
  · exact .ok _
  · exact .ite (.ok _) (.error rfl)

namespace Layout

variable {shape shape' : String}

theorem checkOffset_agree (length total index : Nat) (previous : Option Nat) (offset : Nat) :
    AgreeUpTo DecodeError.kind (checkOffset shape length total index previous offset)
      (checkOffset shape' length total index previous offset) := by
  cases previous with
  | none => exact .ite (.ok _) (.error rfl)
  | some previous => exact .ite (.error rfl) (.ite (.error rfl) (.ok _))

theorem slots_agree (length total : Nat) (sizes : List (Option Nat)) (index : Nat)
    (previous : Option Nat) (bytes : Bytes) :
    AgreeUpTo DecodeError.kind (slots shape length total index previous sizes bytes)
      (slots shape' length total index previous sizes bytes) := by
  induction sizes generalizing index previous bytes with
  | nil => exact .ok _
  | cons size sizes ih =>
    cases size with
    | some width =>
      rw [slots, slots]
      exact (ih _ _ _).bind fun _ => .refl _
    | none =>
      rw [slots, slots]
      exact (checkOffset_agree ..).bind fun _ => (ih _ _ _).bind fun _ => .refl _

theorem windows_agree (sizes : List (Option Nat)) (bytes : Bytes) :
    AgreeUpTo DecodeError.kind (windows shape sizes bytes) (windows shape' sizes bytes) :=
  .ite (.error rfl) ((slots_agree ..).bind fun _ => .ite (.error rfl) (.ok _))

theorem fixedCount_agree (regime : Regime) (width : Nat) (bytes : Bytes) :
    AgreeUpTo DecodeError.kind (fixedCount shape regime width bytes)
      (fixedCount shape' regime width bytes) := by
  cases regime with
  | vector length => exact .ite (.error rfl) (.ite (.error rfl) (.ok _))
  | list limit => exact .ite (.ite (.ok _) (.error rfl)) (.ite (.ok _) (.error rfl))

theorem offsetCount_agree (regime : Regime) (bytes : Bytes) :
    AgreeUpTo DecodeError.kind (offsetCount shape regime bytes)
      (offsetCount shape' regime bytes) := by
  unfold offsetCount
  cases regime with
  | vector length =>
    exact .ite (.error rfl) (.ite (.error rfl) (.ite (.error rfl) (.ite (.ok _) (.error rfl))))
  | list limit =>
    cases bytes with
    | nil => exact .ok _
    | cons b bytes => exact .ite (.error rfl) (.ite (.error rfl) (.ite (.error rfl) (.ok _)))

theorem elementWindows_agree (regime : Regime) (size : Option Nat) (bytes : Bytes) :
    AgreeUpTo DecodeError.kind (elementWindows shape regime size bytes)
      (elementWindows shape' regime size bytes) := by
  cases size with
  | some width =>
    exact (fixedCount_agree ..).bind fun _ => regime.checkLimit_agree.bind fun _ => .refl _
  | none =>
    exact (offsetCount_agree ..).bind fun _ => regime.checkLimit_agree.bind fun _ =>
      windows_agree ..

end Layout

/-! ### Accessors -/

theorem Regime.check_agree {shape shape' : String} {count : Nat} (regime : Regime) :
    AgreeUpTo EncodeError.kind (regime.check shape count) (regime.check shape' count) := by
  rcases regime with length | (_ | limit)
  · exact .ite (.ok _) (.error rfl)
  · exact .ok _
  · exact .ite (.ok _) (.error rfl)

theorem BasicForm.encode_agree {shape shape' : String} (form : BasicForm) (v : Value) :
    AgreeUpTo EncodeError.kind (form.encode shape v) (form.encode shape' v) := by
  cases form with
  | bool => cases v <;> first | exact .ok _ | exact .error rfl
  | uint width => cases v <;> first | exact .ite (.ok _) (.error rfl) | exact .error rfl
  | bytes length => cases v <;> first | exact .ite (.ok _) (.error rfl) | exact .error rfl

/-! ### One node -/

namespace Format

variable {hasher : Hasher} {held : Value → Prop} {f g : Format} {head head' : Heading}
  {regime : Regime} {element element' : Format} {nullable : Bool}
  {variants variants' fields fields' : List Format} {size : Option Nat} {v : Value}

theorem checkSize_agree (shape shape' : String) (size actual : Nat) :
    AgreeUpTo DecodeError.kind (checkSize shape size actual) (checkSize shape' size actual) :=
  .ite (.error rfl) (.ite (.error rfl) (.ok _))

theorem seen_agree {shape shape' : String} (v : Value) :
    AgreeUpTo EncodeError.kind (seen shape v) (seen shape' v) := by
  rw [seen, seen]
  split
  · exact .ok _
  · exact .error rfl

theorem checkArity_agree {shape shape' : String} {declared found : Nat} :
    AgreeUpTo EncodeError.kind (checkArity shape declared found)
      (checkArity shape' declared found) :=
  .ite (.ok _) (.error rfl)

theorem bodyOf_agree {shape shape' : String} (body : Option Value) :
    AgreeUpTo EncodeError.kind (bodyOf shape body) (bodyOf shape' body) := by
  cases body with
  | none => exact .error rfl
  | some w => exact .ok w

/-- Two formats have the same sizes and packing, and agree on the bytes and the roots of some
values. -/
structure AgreesOn (hasher : Hasher) (held : Value → Prop) (f g : Format) : Prop where
  fixedSize : f.fixedSize = g.fixedSize
  packable : f.packable = g.packable
  encode : ∀ v, held v → AgreeUpTo EncodeError.kind (f.encode v) (g.encode v)
  root : ∀ v, held v → AgreeUpTo EncodeError.kind (f.root hasher v) (g.root hasher v)
  signingRoot : ∀ v, held v →
    AgreeUpTo EncodeError.kind (f.signingRoot hasher v) (g.signingRoot hasher v)

/-- Two formats agree on all values. -/
abbrev Agrees (hasher : Hasher) : Format → Format → Prop := AgreesOn hasher fun _ => True

theorem AgreesOn.refl (f : Format) : AgreesOn hasher held f f :=
  ⟨rfl, rfl, fun _ _ => .refl _, fun _ _ => .refl _, fun _ _ => .refl _⟩

theorem AgreesOn.symm (h : AgreesOn hasher held f g) : AgreesOn hasher held g f :=
  ⟨h.fixedSize.symm, h.packable.symm, fun v hv => (h.encode v hv).symm,
    fun v hv => (h.root v hv).symm, fun v hv => (h.signingRoot v hv).symm⟩

theorem AgreesOn.trans {k : Format} (h : AgreesOn hasher held f g) (h' : AgreesOn hasher held g k) :
    AgreesOn hasher held f k :=
  ⟨h.fixedSize.trans h'.fixedSize, h.packable.trans h'.packable,
    fun v hv => (h.encode v hv).trans (h'.encode v hv),
    fun v hv => (h.root v hv).trans (h'.root v hv),
    fun v hv => (h.signingRoot v hv).trans (h'.signingRoot v hv)⟩

theorem agreesOn_basic {a a' : Handler BasicForm} (base : a.base = a'.base) :
    AgreesOn hasher held (basic head a) (basic head' a') := by
  obtain ⟨form, shape, links⟩ := a
  obtain ⟨form', shape', links'⟩ := a'
  obtain rfl : form = form' := base
  refine ⟨rfl, rfl, fun v _ => ?_, fun v _ => ?_, fun v _ => .error rfl⟩
  · rw [encode, encode]
    exact (seen_agree v).bind fun w => form.encode_agree w
  · rw [root, root]
    split
    · exact .ok _
    · exact (form.encode_agree v).bind fun _ => .refl _

theorem AgreesOn.slotSize (h : AgreesOn hasher held f g) : f.slotSize = g.slotSize := by
  rw [Format.slotSize, Format.slotSize, h.fixedSize]

/-- Lists agree if their elements do on whatever may be held in them. -/
theorem agreesOn_list {a a' : Handler ListAccessor} {inner : Value → Prop}
    (elements : AgreesOn hasher inner element element')
    (items : ∀ v, held v → ∀ w ∈ v.concrete, AgreeUpTo EncodeError.kind (a.items w) (a'.items w))
    (inside : ∀ v, held v → ∀ w ∈ v.concrete, ∀ xs, a.items w = .ok xs → ∀ x ∈ xs, inner x) :
    AgreesOn hasher held (list head a regime element) (list head' a' regime element') := by
  refine ⟨?_, rfl, fun v hv => ?_, fun v hv => ?_, fun v _ => .error rfl⟩
  · cases regime with
    | vector length => rw [fixedSize, fixedSize, elements.fixedSize]
    | list limit => rfl
  · -- The elements are asked of what is shown under overlays, of which `items` speaks.
    rw [encode, encode]
    cases shown : v.concrete with
    | none =>
      rw [seen, seen, shown]
      exact .error rfl
    | some w =>
      rw [seen_eq_ok.mpr shown, seen_eq_ok.mpr shown]
      refine (items v hv w shown).bind_of_ok fun xs hxs => regime.check_agree.bind fun _ => ?_
      refine Layout.compose_agree ?_
      rw [Layout.Agreeing, List.forall₂_map_left_iff, List.forall₂_map_right_iff]
      exact List.forall₂_same.mpr fun x mem =>
        ⟨elements.fixedSize, elements.encode x (inside v hv w shown xs hxs x mem)⟩
  · rw [root, root]
    cases bare : v.root? with
    | some r => exact .ok r
    | none =>
      have shown := concrete_of_root? bare
      refine (items v hv v shown).bind_of_ok fun xs hxs => ?_
      have below := inside v hv v shown xs hxs
      refine regime.check_agree.bind fun _ => ?_
      -- Both pack their elements or neither does, with the same room in a chunk for each.
      rw [elements.packable, elements.slotSize]
      refine .ite (.bind (.mapM ?_) fun _ => .refl _) (.bind (.mapM ?_) fun _ => .refl _)
      · exact List.forall₂_same.mpr fun x mem => elements.encode x (below x mem)
      · exact List.forall₂_same.mpr fun x mem => elements.root x (below x mem)

/-- Unions agree if each of their variants does on whatever may be held as it. -/
theorem agreesOn_union {a a' : Handler UnionAccessor} {inner : Format → Value → Prop}
    (each : List.Forall₂ (fun f g => AgreesOn hasher (inner f) f g) variants variants')
    (inside : ∀ v, held v → ∀ selector body, v.concrete = some (.union selector (some body)) →
      ∀ f, Variant.select nullable variants selector = some (.body f) → inner f body) :
    AgreesOn hasher held (union head a nullable variants) (union head' a' nullable variants') := by
  have selector (v : Value) : AgreeUpTo EncodeError.kind (a.selector v) (a'.selector v) := by
    cases v <;> first | exact .ok _ | exact .error rfl
  have body (v : Value) : a.body? v = a'.body? v := by
    cases v <;> rfl
  have below {v w b : Value} {s : UInt32} {f : Format} (hv : held v) (shown : v.concrete = some w)
      (hs : a.selector w = .ok s) (chosen : Variant.select nullable variants s = some (.body f))
      {shape : String} (hb : bodyOf shape (a.body? w) = .ok b) : inner f b := by
    obtain ⟨found, rfl⟩ := UnionAccessor.selector_eq_ok.mp hs
    obtain rfl : found = some b := bodyOf_eq_ok.mp hb
    exact inside v hv s b shown f chosen
  refine ⟨rfl, rfl, fun v hv => ?_, fun v hv => ?_, fun v _ => .error rfl⟩
  · rw [encode, encode]
    refine (seen_agree v).bind_of_ok fun w hw => (selector w).bind_of_ok fun s hs => ?_
    rw [encoders_eq, encoders_eq, Variant.select_map, Variant.select_map, ← body]
    rcases Variant.select_rel each nullable s with ⟨left, right⟩ | ⟨left, right⟩ |
        ⟨f, g, same, left, right⟩
    · rw [left, right]
      exact .error rfl
    · rw [left, right]
      exact .ok _
    · rw [left, right]
      refine (bodyOf_agree _).bind_of_ok fun b hb => AgreeUpTo.bind ?_ fun _ => .refl _
      exact same.encode b (below hv (seen_eq_ok.mp hw) hs left hb)
  · rw [root, root]
    cases bare : v.root? with
    | some r => exact .ok r
    | none =>
      refine (selector v).bind_of_ok fun s hs => ?_
      rw [rooters_eq, rooters_eq, Variant.select_map, Variant.select_map, ← body]
      rcases Variant.select_rel each nullable s with ⟨left, right⟩ | ⟨left, right⟩ |
          ⟨f, g, same, left, right⟩
      · rw [left, right]
        exact .error rfl
      · rw [left, right]
        exact .ok _
      · rw [left, right]
        refine (bodyOf_agree _).bind_of_ok fun b hb => AgreeUpTo.bind ?_ fun _ => .refl _
        exact same.root b (below hv (concrete_of_root? bare) hs left hb)

theorem totalSize_congr (each : List.Forall₂ (fun f g => f.fixedSize = g.fixedSize) fields fields') :
    totalSize fields = totalSize fields' := by
  induction each with
  | nil => rfl
  | cons head _ ih => rw [totalSize, totalSize, head, ih]

/-- Containers agree if each of their fields does on whatever may be held in it. -/
theorem agreesOn_container {a a' : Handler ContainerAccessor} {inner : Format → Value → Prop}
    (each : List.Forall₂ (fun f g => AgreesOn hasher (inner f) f g) fields fields')
    (inside : ∀ v, held v → ∀ values, v.concrete = some (.container values) →
      ∀ p ∈ fields.zip values, inner p.1 p.2) :
    AgreesOn hasher held (container head a fields size) (container head' a' fields' size) := by
  have arity : fields.length = fields'.length := each.length_eq
  have values (v : Value) : AgreeUpTo EncodeError.kind (a.fields v) (a'.fields v) := by
    cases v <;> first | exact .ok _ | exact .error rfl
  -- Each field goes with its value, on which it agrees with its counterpart.
  have paired {v w : Value} {xs : List Value} (hv : held v) (shown : seen head.name v = .ok w)
      (hxs : a.fields w = .ok xs) : List.Forall₂ (fun p q => inner p.1 p.2 ∧
        AgreesOn hasher (inner p.1) p.1 q.1 ∧ p.2 = q.2) (fields.zip xs) (fields'.zip xs) := by
    obtain rfl := ContainerAccessor.fieldsOf_eq_ok.mp hxs
    exact (List.forall₂_and_left _ _).mpr
      ⟨inside v hv xs (seen_eq_ok.mp shown), zip_rel each xs⟩
  refine ⟨rfl, rfl, fun v hv => ?_, fun v hv => ?_, fun v hv => ?_⟩
  · rw [encode, encode, encoders_eq, encoders_eq]
    refine (seen_agree v).bind_of_ok fun w hw => (values w).bind_of_ok fun xs hxs => ?_
    rw [arity]
    refine checkArity_agree.bind fun _ => Layout.compose_agree ?_
    rw [fieldChildren_eq, fieldChildren_eq, Layout.Agreeing, List.forall₂_map_left_iff,
      List.forall₂_map_right_iff]
    refine (paired hv hw hxs).imp ?_
    rintro ⟨f, x⟩ ⟨g, _⟩ ⟨below, same, rfl⟩
    exact ⟨same.fixedSize, same.encode x below⟩
  · rw [root, root, rooters_eq, rooters_eq]
    split
    · exact .ok _
    · refine (seen_agree v).bind_of_ok fun w hw => (values w).bind_of_ok fun xs hxs => ?_
      rw [arity]
      refine checkArity_agree.bind fun _ => AgreeUpTo.bind (.mapM ?_) fun _ => .refl _
      rw [List.zip_map_left, List.zip_map_left, List.forall₂_map_left_iff,
        List.forall₂_map_right_iff]
      refine (paired hv hw hxs).imp ?_
      rintro ⟨f, x⟩ ⟨g, _⟩ ⟨below, same, rfl⟩
      exact same.root x below
  · rw [signingRoot, signingRoot]
    refine (seen_agree v).bind_of_ok fun w hw => (values w).bind_of_ok fun xs hxs => ?_
    rw [arity]
    refine checkArity_agree.bind fun _ => AgreeUpTo.bind (.mapM ?_) fun _ => .refl _
    -- The last field is left out on both sides, which are equally long.
    rw [List.dropLast_eq_take, List.dropLast_eq_take, arity, take_zip_eq, take_zip_eq]
    refine (List.forall₂_take _ (paired hv hw hxs)).imp ?_
    rintro ⟨f, x⟩ ⟨g, _⟩ ⟨below, same, rfl⟩
    exact same.root x below

end Format

end SimpleSerialize
