/-
Subclasses in the place of their targets.

A subclass may stand wherever its target does: as the element of a sequence, a variant of a union or
a field of a container.  The composite keeps its layout, and its accessor if that is not one for
byte strings, which goes by how the elements are declared.  Main statements:

* `Catalog.formatBelow_standIn`: a composite in which a shape stands in for the one that it travels
  as resolves, and agrees with the composite that it stands in;
* `Codec.handledAs_target`: what a codec makes of a subclass, by what it makes of the target.
-/
import SimpleSerialize.Proofs.Canonical
import SimpleSerialize.Proofs.Subclass

namespace SimpleSerialize

/-- A shape is left as it is, or another stands in for it. -/
inductive StandsIn (other target : ShapeId) : ShapeId → ShapeId → Prop
  | same (id : ShapeId) : StandsIn other target id id
  | swapped : StandsIn other target target other

/-- A composite is declared as another, but for a shape that may stand in for another among its
parts. -/
inductive Declaration.StandIn (other target : ShapeId) : Declaration → Declaration → Prop
  | sequence (size : SizeRule) :
    StandIn other target (.sequence target size) (.sequence other size)
  | union {xs ys : List ShapeId} (nullable : Bool) : List.Forall₂ (StandsIn other target) xs ys →
    StandIn other target (.union xs nullable) (.union ys nullable)
  | container {fs gs : List Field} : List.Forall₂ (fun f g => f.name = g.name ∧ f.hint = g.hint ∧
      StandsIn other target f.shape g.shape) fs gs →
    StandIn other target (.container fs) (.container gs)

/-- The value is not held as a byte string. -/
def Value.HeldAsList (v : Value) : Prop := ∀ bs, v.concrete ≠ some (.bytes bs)

/-- All accessors of sequences agree on values that are not byte strings. -/
theorem Handler.items_agree (a a' : Handler ListAccessor) (v : Value) (held : v.HeldAsList) :
    ∀ w ∈ v.concrete, AgreeUpTo EncodeError.kind (a.items w) (a'.items w) := by
  intro w shown
  obtain ⟨base, shape, links⟩ := a
  obtain ⟨base', shape', links'⟩ := a'
  cases w with
  | bytes bs => exact absurd shown (held bs)
  | list items => cases base <;> cases base' <;> exact .ok items
  | _ => cases base <;> cases base' <;> exact .error rfl

namespace Registry

variable {s : Schema} {id : ShapeId}

/-- A shape that is used on its own asks for no accessor by name. -/
theorem eligible_descriptor {α : Type} [ShapeAccessor α] :
    (eligible s (s.descriptor id) : α → Bool) = fun a => ShapeAccessor.supports a s id := by
  have hint : (s.descriptor id).hint = none := by
    rw [Schema.descriptor]
    split <;> rfl
  funext a
  rw [eligible, hint, ShapeAccessor.supports_eq, Schema.shape_descriptor, Bool.true_and]

/-- No accessor is found among those that do not support a shape. -/
theorem find?_unsupported {α : Type} [ShapeAccessor α] (s : Schema) (id : ShapeId) (as : List α)
    (unsupported : ∀ a : α, ShapeAccessor.supports a s id = false) :
    as.find? (eligible s (s.descriptor id)) = none := by
  rw [eligible_descriptor, List.find?_eq_none]
  intro a _
  rw [unsupported a]
  exact Bool.false_ne_true

theorem direct?_sequence {element : ShapeId} {size : SizeRule}
    (declared : s.declaration? id = some (.sequence element size)) (r : Registry) :
    r.direct? s (s.descriptor id) [] =
      (r.list.find? fun a => ShapeAccessor.supports a s id).map fun a => .list ⟨a, []⟩ := by
  have basic := find?_unsupported s id r.basic fun a => by
    cases a <;> simp [ShapeAccessor.supports, declared]
  have union := find?_unsupported s id r.union fun a => by
    simp [ShapeAccessor.supports, declared]
  have container := find?_unsupported s id r.container fun a => by
    simp [ShapeAccessor.supports, declared]
  rw [direct?, basicAccessor?, basic, union, container, eligible_descriptor]
  simp

theorem direct?_union {variants : List ShapeId} {nullable : Bool}
    (declared : s.declaration? id = some (.union variants nullable)) (r : Registry) :
    r.direct? s (s.descriptor id) [] = r.union.head?.map fun a => .union ⟨a, []⟩ := by
  have basic := find?_unsupported s id r.basic fun a => by
    cases a <;> simp [ShapeAccessor.supports, declared]
  have list := find?_unsupported s id r.list fun a => by
    cases a <;> simp [ShapeAccessor.supports, declared]
  have container := find?_unsupported s id r.container fun a => by
    simp [ShapeAccessor.supports, declared]
  have all : (fun a : UnionAccessor => ShapeAccessor.supports a s id) = fun _ => true := by
    funext a
    simp [ShapeAccessor.supports, declared]
  rw [direct?, basicAccessor?, basic, list, container, eligible_descriptor, all]
  cases r.union <;> simp

theorem direct?_container {fields : List Field}
    (declared : s.declaration? id = some (.container fields)) (r : Registry) :
    r.direct? s (s.descriptor id) [] = r.container.head?.map fun a => .container ⟨a, []⟩ := by
  have basic := find?_unsupported s id r.basic fun a => by
    cases a <;> simp [ShapeAccessor.supports, declared]
  have list := find?_unsupported s id r.list fun a => by
    cases a <;> simp [ShapeAccessor.supports, declared]
  have union := find?_unsupported s id r.union fun a => by
    simp [ShapeAccessor.supports, declared]
  have all : (fun a : ContainerAccessor => ShapeAccessor.supports a s id) = fun _ => true := by
    funext a
    simp [ShapeAccessor.supports, declared]
  rw [direct?, basicAccessor?, basic, list, union, eligible_descriptor, all]
  cases r.container <;> simp

end Registry

namespace Catalog

open Schema

variable {c : Catalog} {hasher : Hasher} {id other target x y : ShapeId}
  {links : List (String × Rebuild)} {field hint : Option String} {bound : Nat} {p : Format}

/-! ### Composites on their own -/

section Composite

variable {element : ShapeId} {size : SizeRule} {variants : List ShapeId} {nullable : Bool}
  {fields : List Field} {outline : Outline}

/-- A shape that travels as itself is looked up as it is. -/
theorem resolve_eq_ok (wf : c.schema.WellFormed) (itself : c.schema.TravelsAs id [] id)
    {access : Access} : c.registry.resolve c.schema (c.schema.descriptor id) = .ok access ↔
      c.registry.direct? c.schema (c.schema.descriptor id) [] = some access := by
  rw [← use_none, Registry.resolve, itself.structural_eq wf, itself.wrappers_eq wf, List.map_nil]
  cases c.registry.direct? c.schema (c.schema.use id none none) [] <;> simp

theorem structural_eq_self (wf : c.schema.WellFormed) (itself : c.schema.TravelsAs id [] id) :
    c.schema.structural (c.schema.descriptor id) = c.schema.descriptor id := by
  rw [← use_none, itself.structural_eq wf]

/-- An accessor without wrappers is fitted to the shape itself. -/
theorem plainAt_descriptor {α : Type} (a : α) :
    (⟨a, []⟩ : Wrapped α).plainAt c.schema (c.schema.descriptor id) =
      ⟨a, c.schema.name id, []⟩ := by
  simp only [Wrapped.plainAt, Wrapped.fit, Wrapped.descend, shape_descriptor]

theorem outline_sequence_eq_ok (wf : c.schema.WellFormed)
    (declared : c.schema.declaration? id = some (.sequence element size)) :
    c.outline (c.schema.descriptor id) = .ok outline ↔
      ∃ a, (c.registry.list.find? fun a => ShapeAccessor.supports a c.schema id) = some a ∧
        outline = .list ⟨a, c.schema.name id, []⟩ size (c.schema.descriptor element) := by
  have itself : c.schema.TravelsAs id [] id := .target declared nofun
  have rule : (c.schema.descriptor id).size = size := by
    rw [Schema.descriptor, declared]
  simp only [Catalog.outline, bind_eq_ok, resolve_eq_ok wf itself, structural_eq_self wf itself,
    Registry.direct?_sequence declared, Option.map_eq_some_iff, shape_descriptor, declared, rule,
    exists_exists_and_eq_and, pure_eq_ok, plainAt_descriptor]
  exact exists_congr fun a => and_congr_right fun _ => eq_comm

theorem outline_union_eq_ok (wf : c.schema.WellFormed)
    (declared : c.schema.declaration? id = some (.union variants nullable)) :
    c.outline (c.schema.descriptor id) = .ok outline ↔ ∃ a, c.registry.union.head? = some a ∧
      outline = .union ⟨a, c.schema.name id, []⟩ nullable (variants.map c.schema.descriptor) := by
  have itself : c.schema.TravelsAs id [] id := .target declared nofun
  simp only [Catalog.outline, bind_eq_ok, resolve_eq_ok wf itself, structural_eq_self wf itself,
    Registry.direct?_union declared, Option.map_eq_some_iff, shape_descriptor, declared,
    exists_exists_and_eq_and, pure_eq_ok, plainAt_descriptor]
  exact exists_congr fun a => and_congr_right fun _ => eq_comm

theorem outline_container_eq_ok (wf : c.schema.WellFormed)
    (declared : c.schema.declaration? id = some (.container fields)) :
    c.outline (c.schema.descriptor id) = .ok outline ↔ ∃ a, c.registry.container.head? = some a ∧
      outline = .container ⟨a, c.schema.name id, []⟩ (fields.map c.fieldDescriptor) := by
  have itself : c.schema.TravelsAs id [] id := .target declared nofun
  simp only [Catalog.outline, bind_eq_ok, resolve_eq_ok wf itself, structural_eq_self wf itself,
    Registry.direct?_container declared, Option.map_eq_some_iff, shape_descriptor, declared,
    exists_exists_and_eq_and, pure_eq_ok, plainAt_descriptor]
  exact exists_congr fun a => and_congr_right fun _ => eq_comm

end Composite

/-! ### Composites with stand-ins -/

/-- Wherever a use of a shape has a format, another use has one that agrees with it. -/
def Covers (c : Catalog) (hasher : Hasher) (bound : Nat) (d e : Descriptor) : Prop :=
  ∀ p, c.formatBelow bound d = .ok p → ∃ q, c.formatBelow bound e = .ok q ∧ p.Agrees hasher q

theorem covers_of_standsIn (wf : c.schema.WellFormed)
    (travels : c.schema.TravelsAs other links target) (stands : StandsIn other target x y) :
    c.Covers hasher bound (c.schema.use x field hint) (c.schema.use y field hint) := by
  intro p h
  cases stands with
  | same => exact ⟨p, h, .refl p⟩
  | swapped => exact ⟨_, formatBelow_through wf travels h, p.agreesOn_through⟩

theorem exists_parts {ds es : List Descriptor} {ps : List Format}
    (each : List.Forall₂ (c.Covers hasher bound) ds es)
    (h : List.Forall₂ (fun d p => c.formatBelow bound d = .ok p) ds ps) :
    ∃ qs, List.Forall₂ (fun e q => c.formatBelow bound e = .ok q) es qs ∧
      List.Forall₂ (Format.Agrees hasher) ps qs := by
  induction each generalizing ps with
  | nil =>
    cases h
    exact ⟨[], .nil, .nil⟩
  | cons head _ ih =>
    cases h with
    | cons first rest =>
      obtain ⟨q, hq, agrees⟩ := head _ first
      obtain ⟨qs, hqs, others⟩ := ih rest
      exact ⟨q :: qs, .cons hq hqs, .cons agrees others⟩

/-- A format of the same sizes passes the check that another passed. -/
theorem checkFixedSize_of_agrees {held : Value → Prop} {f g : Format}
    (h : checkFixedSize f = .ok f) (agrees : f.AgreesOn hasher held g) :
    checkFixedSize g = .ok g := by
  obtain ⟨-, small⟩ := checkFixedSize_eq_ok.mp h
  exact checkFixedSize_eq_ok.mpr ⟨rfl, agrees.fixedSize ▸ small⟩

section Finish

variable {held : Value → Prop} {d e : Descriptor} {parts others : List Format} {f : Format}

theorem finish_list_agree {a a' : Handler ListAccessor} {size : SizeRule}
    {element element' : Descriptor}
    (items : ∀ v, held v → ∀ w ∈ v.concrete, AgreeUpTo EncodeError.kind (a.items w) (a'.items w))
    (each : List.Forall₂ (Format.Agrees hasher) parts others)
    (h : c.finish d (.list a size element) parts = .ok f) :
    ∃ g, c.finish e (.list a' size element') others = .ok g ∧ f.AgreesOn hasher held g := by
  cases each with
  | nil => cases h
  | @cons p q _ _ head _ =>
    simp only [finish, bind_eq_ok] at h ⊢
    obtain ⟨regime, hregime, h⟩ := h
    obtain rfl := eq_of_checkFixedSize h
    have agrees : (Format.list ⟨c.schema.name d.shape, d⟩ a regime p).AgreesOn hasher held
        (.list ⟨c.schema.name e.shape, e⟩ a' regime q) :=
      Format.agreesOn_list head items fun _ _ _ _ _ _ _ _ => trivial
    exact ⟨_, ⟨regime, regime_rename hregime _, checkFixedSize_of_agrees h agrees⟩, agrees⟩

theorem finish_union_agree {a a' : Handler UnionAccessor} {nullable : Bool}
    {variants variants' : List Descriptor} (each : List.Forall₂ (Format.Agrees hasher) parts others)
    (h : c.finish d (.union a nullable variants) parts = .ok f) :
    ∃ g, c.finish e (.union a' nullable variants') others = .ok g ∧ f.AgreesOn hasher held g := by
  cases h
  exact ⟨_, rfl, Format.agreesOn_union each fun _ _ _ _ _ _ _ => trivial⟩

theorem finish_container_agree {a a' : Handler ContainerAccessor} {fields fields' : List Descriptor}
    (each : List.Forall₂ (Format.Agrees hasher) parts others)
    (h : c.finish d (.container a fields) parts = .ok f) :
    ∃ g, c.finish e (.container a' fields') others = .ok g ∧ f.AgreesOn hasher held g := by
  have sizes : Format.totalSize parts = Format.totalSize others :=
    Format.totalSize_congr (each.imp fun _ _ agrees => agrees.fixedSize)
  simp only [finish, Format.ofFields, ← sizes] at h ⊢
  obtain rfl := eq_of_checkFixedSize h
  have agrees : Format.AgreesOn hasher held
      (.container ⟨c.schema.name d.shape, d⟩ a parts (Format.totalSize parts))
      (.container ⟨c.schema.name e.shape, e⟩ a' others (Format.totalSize parts)) :=
    Format.agreesOn_container each fun _ _ _ _ _ _ => trivial
  exact ⟨_, checkFixedSize_of_agrees h agrees, agrees⟩

end Finish

/-- A registry with the accessor of all sequences has one for every sequence. -/
theorem exists_listAccessor {element : ShapeId} {size : SizeRule}
    (declared : c.schema.declaration? id = some (.sequence element size))
    (known : .sequence ∈ c.registry.list) :
    ∃ a, (c.registry.list.find? fun a => ShapeAccessor.supports a c.schema id) = some a := by
  refine Option.isSome_iff_exists.mp (List.find?_isSome.mpr ⟨.sequence, known, ?_⟩)
  simp only [ShapeAccessor.supports, declared]

/-- A sequence of anything but bytes is handled by the accessor of all sequences. -/
theorem mem_of_listAccessor {element : ShapeId} {size : SizeRule} {a : ListAccessor}
    (declared : c.schema.declaration? id = some (.sequence element size))
    (found : (c.registry.list.find? fun a => ShapeAccessor.supports a c.schema id) = some a)
    (bytes : c.schema.declaration? element = some (.basic (.uint 1)) →
      .sequence ∈ c.registry.list) : .sequence ∈ c.registry.list := by
  cases a with
  | sequence => exact List.mem_of_find?_eq_some found
  | byteSequence =>
    have supported := List.find?_some found
    simp only [ShapeAccessor.supports, declared] at supported
    split at supported
    · rename_i kind basic
      exact bytes (eq_of_beq supported ▸ basic)
    · cases supported

theorem formatBelow_standIn {composite instead : ShapeId} {d d' : Declaration} {f : Format}
    (wf : c.schema.WellFormed) (travels : c.schema.TravelsAs other links target)
    (declared : c.schema.declaration? composite = some d)
    (declared' : c.schema.declaration? instead = some d') (standIn : d.StandIn other target d')
    (bytes : ∀ size, d = .sequence target size →
      c.schema.declaration? target = some (.basic (.uint 1)) → .sequence ∈ c.registry.list)
    (h : c.formatBelow bound (c.schema.descriptor composite) = .ok f) :
    ∃ g, c.formatBelow bound (c.schema.descriptor instead) = .ok g ∧
      f.AgreesOn hasher Value.HeldAsList g := by
  cases bound with
  | zero => cases h
  | succ bound =>
    obtain ⟨outline, parts, ho, hp, h⟩ := formatBelow_succ_eq_ok.mp h
    -- The parts agree one by one, and the composite is put together from them once more.
    have covers {x y : ShapeId} (stands : StandsIn other target x y) :
        c.Covers hasher bound (c.schema.descriptor x) (c.schema.descriptor y) := by
      rw [← use_none, ← use_none]
      exact covers_of_standsIn wf travels stands
    cases standIn with
    | sequence size =>
      obtain ⟨a, ha, rfl⟩ := (outline_sequence_eq_ok wf declared).mp ho
      -- The accessor may be another: the one for byte strings knows bytes by their declaration.
      have known := mem_of_listAccessor declared ha (bytes _ rfl)
      obtain ⟨a', ha'⟩ := exists_listAccessor declared' known
      obtain ⟨others, hothers, agree⟩ := exists_parts (.cons (covers .swapped) .nil) hp
      have outline := (outline_sequence_eq_ok wf declared').mpr ⟨a', ha', rfl⟩
      obtain ⟨g, hg, agrees⟩ := finish_list_agree (Handler.items_agree _ _) agree h
      exact ⟨g, formatBelow_succ_eq_ok.mpr ⟨_, others, outline, hothers, hg⟩, agrees⟩
    | union nullable each =>
      obtain ⟨a, ha, rfl⟩ := (outline_union_eq_ok wf declared).mp ho
      have variants := each.imp fun x y => covers
      obtain ⟨others, hothers, agree⟩ := exists_parts (List.forall₂_map_left_iff.mpr
        (List.forall₂_map_right_iff.mpr variants)) hp
      have outline := (outline_union_eq_ok wf declared').mpr ⟨a, ha, rfl⟩
      obtain ⟨g, hg, agrees⟩ := finish_union_agree agree h
      exact ⟨g, formatBelow_succ_eq_ok.mpr ⟨_, others, outline, hothers, hg⟩, agrees⟩
    | @container fs gs each =>
      obtain ⟨a, ha, rfl⟩ := (outline_container_eq_ok wf declared).mp ho
      have fields : List.Forall₂ (fun f g =>
          c.Covers hasher bound (c.fieldDescriptor f) (c.fieldDescriptor g)) fs gs := by
        refine each.imp ?_
        rintro ⟨name, x, hint⟩ ⟨_, y, _⟩ ⟨rfl, rfl, stands⟩
        exact covers_of_standsIn wf travels stands
      obtain ⟨others, hothers, agree⟩ := exists_parts (List.forall₂_map_left_iff.mpr
        (List.forall₂_map_right_iff.mpr fields)) hp
      have outline := (outline_container_eq_ok wf declared').mpr ⟨a, ha, rfl⟩
      obtain ⟨g, hg, agrees⟩ := finish_container_agree agree h
      exact ⟨g, formatBelow_succ_eq_ok.mpr ⟨_, others, outline, hothers, hg⟩, agrees⟩

end Catalog

/-! ### Codecs -/

namespace Codec

variable {catalog : Catalog} {hasher : Hasher} {c c' : Codec} {id last : ShapeId}
  {links : List (String × Rebuild)} {f : Format}

/-- A value is written and hashed as one shape in one state of a session as it is as another in
another, or refused for the same kind of reason. -/
structure AnswersAgree (c c' : Codec) (shape shape' : ShapeId) (v : Value) : Prop where
  encode : AgreeUpTo CodecError.kind ((encode shape v).run c).1 ((encode shape' v).run c').1
  root : AgreeUpTo CodecError.kind ((root shape v).run c).1 ((root shape' v).run c').1
  signingRoot : AgreeUpTo CodecError.kind ((signingRoot shape v).run c).1
    ((signingRoot shape' v).run c').1

/-- A shape is handled as the one that it travels as, whose format is `f`, but for the links between
the two. -/
structure HandledAs (catalog : Catalog) (c c' : Codec) (id last : ShapeId)
    (links : List (String × Rebuild)) (f : Format) : Prop where
  /-- It resolves to the same node, with the links around its accessor. -/
  format : ∃ g, catalog.format (catalog.schema.descriptor id) = .ok g ∧
    g = f.through ⟨catalog.schema.name id, catalog.schema.descriptor id⟩ links ∧
    g.category = f.category ∧ g.packable = f.packable ∧ g.parts = f.parts
  fixedSize : ((fixedSize id).run c).1 = ((fixedSize last).run c').1
  answers : ∀ v, AnswersAgree c c' id last v
  /-- What is read is handed to the links, innermost first. -/
  decode : ∀ bytes w, ((decode id bytes).run c).1 = .ok w ↔
    ∃ v, ((decode last bytes).run c').1 = .ok v ∧ links.reverse.foldlM Handler.relink v = .ok w
  /-- A link that refuses a value is named. -/
  refusal : ∀ bytes v e, ((Codec.decode last bytes).run c').1 = .ok v →
    ((Codec.decode id bytes).run c).1 = .error e →
    ∃ outer link inner w reason, links = outer ++ link :: inner ∧
      inner.reverse.foldlM Handler.relink v = .ok w ∧ link.2 w = .error reason ∧
      e = .decode (.rejected link.1 reason)
  /-- A composite in which it stands in for the other resolves, too, and is written and hashed
  alike, unless it is a sequence of bytes and there is no accessor but one for byte strings. -/
  standIn : ∀ composite instead d d' g, catalog.schema.declaration? composite = some d →
    catalog.schema.declaration? instead = some d' → d.StandIn id last d' →
    (∀ size, d = .sequence last size →
      catalog.schema.declaration? last = some (.basic (.uint 1)) →
        .sequence ∈ catalog.registry.list) →
    catalog.format (catalog.schema.descriptor composite) = .ok g →
    (∃ g', catalog.format (catalog.schema.descriptor instead) = .ok g') ∧
      ∀ v : Value, v.HeldAsList → AnswersAgree c c' instead composite v

/-- Formats that agree give agreeing answers in any states of any sessions. -/
theorem answersAgree_of_agreesOn {catalog' : Catalog} (session : Session catalog hasher c)
    (session' : Session catalog' hasher c') {shape shape' : ShapeId} {held : Value → Prop}
    {f g : Format} (resolved : catalog.format (catalog.schema.descriptor shape) = .ok f)
    (resolved' : catalog'.format (catalog'.schema.descriptor shape') = .ok g)
    (agrees : f.AgreesOn hasher held g) (v : Value) (hv : held v) :
    AnswersAgree c c' shape shape' v := by
  constructor
  · rw [encode, encode, run_withFormat session resolved, run_withFormat session' resolved']
    exact (agrees.encode v hv).codec
  · rw [root, root, run_withFormat session resolved, run_withFormat session' resolved']
    exact (agrees.root v hv).codec
  · rw [signingRoot, signingRoot, run_withFormat session resolved,
      run_withFormat session' resolved']
    exact (agrees.signingRoot v hv).codec

/-- A subclass is handled as its target. -/
theorem handledAs_target (session : Session catalog hasher c) (session' : Session catalog hasher c')
    (wf : catalog.schema.WellFormed) (travels : catalog.schema.TravelsAs id links last)
    (resolved : catalog.format (catalog.schema.descriptor last) = .ok f) :
    HandledAs catalog c c' id last links f := by
  have through := Catalog.format_through wf travels resolved
  have agrees : f.Agrees hasher
      (f.through ⟨catalog.schema.name id, catalog.schema.descriptor id⟩ links) := f.agreesOn_through
  refine
    { format := ⟨_, through, rfl, ?_⟩
      fixedSize := ?_
      answers := fun v =>
        answersAgree_of_agreesOn session session' through resolved agrees.symm v trivial
      decode := fun bytes w => ?_
      refusal := fun bytes v e read failed => ?_
      standIn := fun composite instead d d' g declared declared' standIn bytes found => ?_ }
  · cases f <;> exact ⟨rfl, rfl, rfl⟩
  · rw [Codec.fixedSize, Codec.fixedSize, run_withFormat session through,
      run_withFormat session' resolved, Format.fixedSize_through]
  · simp only [decode_eq_ok session through, decode_eq_ok session' resolved]
    exact Format.decode_through_eq_ok
  · have read := (decode_eq_ok session' resolved).mp read
    rw [Codec.decode, run_withFormat session through, Format.decode_through_of_ok read,
      mapError_eq_error] at failed
    obtain ⟨_, refused, rfl⟩ := failed
    obtain ⟨outer, link, inner, w, reason, split, inside, answer, rfl⟩ := Handler.of_refused refused
    exact ⟨outer, link, inner, w, reason, split, inside, answer, rfl⟩
  · obtain ⟨g', found', agrees⟩ := Catalog.formatBelow_standIn wf travels declared declared' standIn
      bytes found
    exact ⟨⟨g', found'⟩, answersAgree_of_agreesOn session session' found' found agrees.symm⟩

/-- A number that travels through two links, a list of such numbers and one of plain numbers. -/
def linkedSchema : Schema where
  entries := [
    ⟨"uint8", .basic (.uint 1)⟩,
    ⟨"Even", .subclass 0 refuseOdd⟩,
    ⟨"Small", .subclass 1 .ok⟩,
    ⟨"List[uint8]", .sequence 0 .unbounded⟩,
    ⟨"List[Small]", .sequence 2 .unbounded⟩]

theorem wellFormed_linked : linkedSchema.WellFormed := by decide

theorem travelsAs_linked :
    linkedSchema.TravelsAs 2 [("Small", .ok), ("Even", refuseOdd)] 0 :=
  .link rfl (.link rfl (.target rfl nofun))

theorem handledAs_target_linked :
    let c : Codec := { catalog := { schema := linkedSchema } }
    ∃ f, c.catalog.format (linkedSchema.descriptor 0) = .ok f ∧
      HandledAs c.catalog c c 2 0 [("Small", .ok), ("Even", refuseOdd)] f := by
  intro c
  obtain ⟨f, resolved⟩ : ∃ f, c.catalog.format (linkedSchema.descriptor 0) = .ok f := ⟨_, rfl⟩
  exact ⟨f, resolved, handledAs_target .start .start wellFormed_linked travelsAs_linked resolved⟩

/-- An accessor for sequences of numbers of two bytes, which goes by how the elements are declared,
as the one for byte strings does. -/
inductive PairSequence
  | pairs

instance : ShapeAccessor PairSequence where
  names _ := ["pairs"]
  supports _ s id :=
    match s.declaration? id with
    | some (.sequence element _) =>
      match s.declaration? element with
      | some (.basic kind) => kind == .uint 2
      | _ => false
    | _ => false

/-- A number of two bytes, a subclass of it, and lists of both. -/
def pairSchema : Schema where
  entries := [
    ⟨"uint16", .basic (.uint 2)⟩,
    ⟨"Port", .subclass 0 .ok⟩,
    ⟨"List[uint16]", .sequence 0 .unbounded⟩,
    ⟨"List[Port]", .sequence 1 .unbounded⟩]

/-- Where byte strings are the only sequences, there is an accessor for a list of numbers, but none
if a subclass stands in for the numbers.  With accessors beyond the stock ones, the same can be so
for other elements than bytes. -/
theorem no_accessor_for_linked :
    let registry : Registry := { basic := [.uint], list := [.byteSequence] }
    let c : Codec := { catalog := { schema := linkedSchema, registry } }
    let paired : Catalog BasicAccessor PairSequence :=
      { schema := pairSchema, registry := { basic := [.uint], list := [.pairs] } }
    ((∃ f, c.catalog.format (linkedSchema.descriptor 0) = .ok f) ∧
      linkedSchema.TravelsAs 2 [("Small", .ok), ("Even", refuseOdd)] 0 ∧
      (∃ d d', linkedSchema.declaration? 3 = some d ∧ linkedSchema.declaration? 4 = some d' ∧
        d.StandIn 2 0 d') ∧
      ((encode 3 (.list [.uint 2])).run c).1 = .ok [2] ∧
      ((encode 4 (.list [.uint 2])).run c).1 =
        .error (.schema (.unsupported "List[Small]" none none))) ∧
    (∃ f, paired.format (pairSchema.descriptor 0) = .ok f) ∧
      pairSchema.TravelsAs 1 [("Port", .ok)] 0 ∧
      (∃ d d', pairSchema.declaration? 2 = some d ∧ pairSchema.declaration? 3 = some d' ∧
        d.StandIn 1 0 d') ∧
      (∃ f, paired.format (pairSchema.descriptor 2) = .ok f) ∧
      paired.format (pairSchema.descriptor 3) = .error (.unsupported "List[Port]" none none) := by
  intro registry c paired
  have port : pairSchema.TravelsAs 1 [("Port", .ok)] 0 := .link rfl (.target rfl nofun)
  exact ⟨⟨⟨_, rfl⟩, travelsAs_linked, ⟨_, _, rfl, rfl, .sequence .unbounded⟩, by decide +kernel,
    by decide +kernel⟩, ⟨_, rfl⟩, port, ⟨_, _, rfl, rfl, .sequence .unbounded⟩, ⟨_, rfl⟩, rfl⟩

end Codec

end SimpleSerialize
