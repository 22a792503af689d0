/-
The accessors of sequences.

A sequence of bytes may be handled by the accessor of all sequences or by one that holds it as a byte
string.  Which of them is found first is up to the registry.  A format is compared with the one in
which every sequence has the accessor of all sequences: sizes, written bytes and roots are the same,
and what is read differs only in how sequences of bytes are held.  Two registries therefore cannot be
told apart by anything but that.  Main statements:

* `Format.agreesOn_general`: values that are held as lists are written and hashed alike;
* `Format.decode_general`: what is read is the same, once byte strings are spelled as lists;
* `Catalog.general_eq_of_formatBelow`: under any two registries a shape has formats that differ in
  the accessors of sequences only;
* `Codec.listAccessor_unobservable`: the choice of accessors cannot be observed.
-/
import SimpleSerialize.Proofs.Lifting
import SimpleSerialize.Proofs.Links
import SimpleSerialize.Proofs.Relabel
import SimpleSerialize.Proofs.StandIn

namespace SimpleSerialize

/-- The accessor of all sequences in the place of every accessor of sequences. -/
def Relabeling.general : Relabeling := ⟨id, fun _ => .sequence⟩

namespace Format

/-- The format as it is when no sequence is held as a byte string. -/
abbrev general (f : Format) : Format := f.relabel .general

mutual

/-- No sequence in a value is held as a byte string. -/
def HeldAsLists : Format → Value → Prop
  | basic _ _, _ => True
  | list _ _ _ element, v => v.HeldAsList ∧
    ∀ items, v.concrete = some (.list items) → ∀ item ∈ items, element.HeldAsLists item
  | union _ _ nullable variants, v => ∀ selector body,
    v.concrete = some (.union selector (some body)) →
      ∀ held, Variant.select nullable (holders variants) selector = some (.body held) → held body
  | container _ _ fields _, v => ∀ values, v.concrete = some (.container values) →
    ∀ p ∈ (holders fields).zip values, p.1 p.2

/-- What each of some formats asks of a value. -/
def holders : List Format → List (Value → Prop)
  | [] => []
  | f :: fs => f.HeldAsLists :: holders fs

end

@[simp] theorem holders_eq (fs : List Format) : holders fs = fs.map HeldAsLists := by
  induction fs with
  | nil => rfl
  | cons f fs ih => rw [holders, ih, List.map_cons]

mutual

/-- The value with every sequence of bytes spelled as a list of integers. -/
def spelled : Format → Value → Value
  | list _ _ _ _, .bytes bs => .list (bs.map fun b => .uint b.toUInt64)
  | list _ _ _ element, .list items => .list (items.map element.spelled)
  | union _ _ nullable variants, .union selector (some body) =>
    match Variant.select nullable (spellers variants) selector with
    | some (.body spell) => .union selector (some (spell body))
    | _ => .union selector (some body)
  | container _ _ fields _, .container values =>
    .container ((spellers fields).zipWith (fun spell value => spell value) values)
  | _, v => v

/-- How each of some formats spells a value. -/
def spellers : List Format → List (Value → Value)
  | [] => []
  | f :: fs => f.spelled :: spellers fs

end

@[simp] theorem spellers_eq (fs : List Format) : spellers fs = fs.map spelled := by
  induction fs with
  | nil => rfl
  | cons f fs ih => rw [spellers, ih, List.map_cons]

variable {hasher : Hasher} {f : Format} {bytes : Bytes} {v : Value}

/-! ### Writing and hashing -/

/-- What is asked of a value does not depend on accessors. -/
theorem heldAsLists_general (f : Format) : f.general.HeldAsLists = f.HeldAsLists := by
  induction f with
  | basic h a => rfl
  | list h a regime element ih =>
    funext v
    rw [general, relabel, HeldAsLists, HeldAsLists, ih]
  | union h a nullable variants ih =>
    funext v
    rw [general, relabel, HeldAsLists, HeldAsLists, relabelAll_eq, holders_eq, holders_eq,
      map_relabel ih]
  | container h a fields size ih =>
    funext v
    rw [general, relabel, HeldAsLists, HeldAsLists, relabelAll_eq, holders_eq, holders_eq,
      map_relabel ih]

/-- Values that are held as lists are written and hashed alike by all accessors. -/
theorem agreesOn_general (f : Format) : AgreesOn hasher f.HeldAsLists f f.general := by
  have every {fs : List Format} (ih : ∀ f ∈ fs, AgreesOn hasher f.HeldAsLists f f.general) :
      List.Forall₂ (fun f g => AgreesOn hasher f.HeldAsLists f g) fs (relabelAll .general fs) := by
    rw [relabelAll_eq, List.forall₂_map_right_iff]
    exact List.forall₂_same.mpr ih
  induction f with
  | basic h a => exact agreesOn_basic rfl
  | list h a regime element ih =>
    refine agreesOn_list ih (fun v held => Handler.items_agree _ _ v held.1) ?_
    intro v held w shown xs hxs
    rcases ListAccessor.items_eq_ok.mp hxs with rfl | ⟨-, bs, rfl, -⟩
    · exact held.2 xs shown
    · exact absurd shown (held.1 bs)
  | union h a nullable variants ih =>
    refine agreesOn_union (every ih) fun v held selector body shown f chosen => ?_
    refine held selector body shown f.HeldAsLists ?_
    rw [holders_eq, Variant.select_map, chosen]
    rfl
  | container h a fields size ih =>
    refine agreesOn_container (every ih) fun v held values shown p mem => ?_
    refine held values shown (p.1.HeldAsLists, p.2) ?_
    rw [holders_eq, List.zip_map_left]
    exact List.mem_map_of_mem mem

/-- Formats that differ in the accessors of sequences only agree on values that are held as lists. -/
theorem agreesOn_of_general_eq {g : Format} (same : f.general = g.general) :
    AgreesOn hasher f.HeldAsLists f g := by
  have held : f.HeldAsLists = g.HeldAsLists := by
    rw [← heldAsLists_general f, same, heldAsLists_general]
  refine (agreesOn_general f).trans ?_
  rw [same, held]
  exact (agreesOn_general g).symm

/-! ### Reading -/

/-- How values are spelled does not depend on accessors. -/
theorem spelled_general (f : Format) : f.general.spelled = f.spelled := by
  induction f with
  | basic h a => rfl
  | list h a regime element ih =>
    funext v
    cases v <;> rw [general, relabel] <;> simp only [spelled, ih]
  | union h a nullable variants ih =>
    funext v
    cases v with
    | union selector body =>
      cases body with
      | none => rfl
      | some body =>
        rw [general, relabel, relabelAll_eq]
        simp only [spelled, spellers_eq, map_relabel ih]
    | _ => rfl
  | container h a fields size ih =>
    funext v
    cases v with
    | container values =>
      rw [general, relabel, relabelAll_eq]
      simp only [spelled, spellers_eq, map_relabel ih]
    | _ => rfl

/-- What is read as a byte is a word. -/
theorem byte_of_decode (isByte : f.IsByte) (inert : f.AllLinks Rebuild.Inert)
    (h : f.decode bytes = .ok v) : ∃ b : UInt8, v = .uint b.toUInt64 := by
  obtain ⟨b, -, read⟩ := byte_of_encode isByte (encode_eq_of_decode inert h)
  rw [normal_of_isNormal (isNormal_of_decode inert h)] at read
  exact ⟨b, read⟩

theorem spelled_basic {h : Heading} {a : Handler BasicForm} : (basic h a).spelled = id := by
  funext v
  cases v <;> rfl

/-- A sequence that was put together is spelled as the list of its elements. -/
theorem spelled_create {h : Heading} {a : Handler ListAccessor} {regime : Regime}
    {element : Format} {items : List Value}
    (bytes : a.base = .byteSequence → element.IsByte ∧ ∀ item ∈ items, ∃ b : UInt8,
      item = .uint b.toUInt64) :
    (a.base.create a.shape items).map (list h a regime element).spelled =
      .ok (.list (items.map element.spelled)) := by
  cases base : a.base with
  | sequence =>
    show Except.ok ((list h a regime element).spelled (.list items)) = _
    rw [spelled]
  | byteSequence =>
    obtain ⟨isByte, each⟩ := bytes base
    obtain ⟨bs, same⟩ := exists_forall₂ each
    have made : ListAccessor.create a.shape .byteSequence items = .ok (.bytes bs) := by
      rw [ListAccessor.create, map_eq_ok]
      exact ⟨bs, mapM_eq_ok.mpr (same.imp fun _ _ => ListAccessor.byteOf_eq_ok.mpr), rfl⟩
    have spell : items.map element.spelled = items := by
      cases element with
      | basic h a => rw [spelled_basic, List.map_id]
      | _ => cases isByte
    have words : items.map id = bs.map fun b => Value.uint b.toUInt64 := map_eq_map_iff.mpr same
    rw [List.map_id] at words
    rw [made, spell, words]
    show Except.ok ((list h a regime element).spelled (.bytes bs)) = _
    rw [spelled]

/-- Links that are the identity leave what is put together as it is. -/
theorem create_general {h : Heading} {a : Handler ListAccessor} {regime : Regime} {element : Format}
    {items : List Value} (identity : ∀ link ∈ a.links, Rebuild.Identity link.2)
    (bytes : a.base = .byteSequence → element.IsByte ∧ ∀ item ∈ items, ∃ b : UInt8,
      item = .uint b.toUInt64) :
    Handler.createList { a with base := .sequence } (items.map element.spelled) =
      (a.createList items).map (list h a regime element).spelled := by
  have done : a.finish = fun v => .ok v := funext fun _ => Handler.finish_eq identity
  have done' : Handler.finish { a with base := ListAccessor.sequence } = fun v => .ok v := done
  rw [Handler.createList, Handler.createList, done, done', bind_map]
  refine Eq.trans (@spelled_create h a regime element items bytes).symm ?_
  cases a.base.create a.shape items <;> rfl

/-- What is read with the accessor of all sequences is what is read without it, spelled as lists. -/
theorem decode_general (lawful : f.Lawful) (identity : f.AllLinks Rebuild.Identity)
    (bytes : Bytes) : f.general.decode bytes = (f.decode bytes).map f.spelled := by
  have every {fs : List Format} (ih : ∀ f ∈ fs, f.Lawful → f.AllLinks Rebuild.Identity →
      ∀ bytes, f.general.decode bytes = (f.decode bytes).map f.spelled)
      (lawful : ∀ f ∈ fs, f.Lawful) (identity : ∀ f ∈ fs, f.AllLinks Rebuild.Identity) :
      (fs.map general).map decode = fs.map fun f w => (f.decode w).map f.spelled := by
    rw [List.map_map]
    exact List.map_congr_left fun f mem => funext (ih f mem (lawful f mem) (identity f mem))
  induction f generalizing bytes with
  | basic h a =>
    rw [spelled_basic]
    show (basic h a).decode bytes = _
    cases (basic h a).decode bytes <;> rfl
  | list h a regime element ih =>
    have mem : element ∈ (list h a regime element).parts := List.mem_cons_self
    have below := identity.inside element mem
    have inner : (fun w => element.general.decode w) =
        fun w => (element.decode w).map element.spelled :=
      funext fun w => ih (lawful.inside element mem) below w
    simp only [general, relabel, decode, fixedSize_relabel, bind_map] at inner ⊢
    refine congrArg _ (funext fun windows => ?_)
    rw [inner, mapM_map_result, map_bind]
    cases read : windows.mapM fun w => element.decode w with
    | error e => rfl
    | ok items =>
      refine create_general identity.here fun base => ?_
      have isByte := lawful.here.2 base
      have inert := AllLinks.imp below fun _ => Rebuild.Identity.inert
      exact ⟨isByte, forall_right (mapM_eq_ok.mp read) fun _ _ => byte_of_decode isByte inert⟩
  | union h a nullable variants ih =>
    have every := every ih lawful.inside identity.inside
    have made (selector : UInt32) (body : Option Value) :
        a.createUnion selector body = .ok (.union selector body) := Handler.finish_eq identity.here
    simp only [general, relabel, decode, relabelAll_eq, decoders_eq] at every ⊢
    rw [every]
    simp only [Variant.select_map, made]
    split
    · rfl
    · cases chosen : Variant.select nullable variants (UInt32.ofNat (Layout.readOffset bytes)) with
      | none => rfl
      | some variant =>
        cases variant with
        | empty =>
          simp only [Option.map_some, Variant.map]
          split <;> rfl
        | body f =>
          simp only [Option.map_some, Variant.map]
          cases f.decode (bytes.drop Layout.offsetSize) with
          | error e => rfl
          | ok v =>
            show Except.ok _ = Except.ok (spelled _ _)
            simp only [spelled, spellers_eq, Variant.select_map, chosen]
            rfl
  | container h a fields size ih =>
    have every := every ih lawful.inside identity.inside
    have made (values : List Value) : a.createContainer values = .ok (.container values) :=
      Handler.finish_eq identity.here
    simp only [general, relabel, decode, relabelAll_eq, decoders_eq, bind_map] at every ⊢
    rw [every, map_fixedSize_relabel]
    refine congrArg _ (funext fun windows => ?_)
    rw [zip_mapM_map_result, map_bind]
    refine congrArg _ (funext fun values => ?_)
    rw [made, made]
    show Except.ok _ = Except.ok (spelled _ _)
    rw [spelled, spellers_eq, List.zipWith_map_left]

/-- Formats that differ in the accessors of sequences only read the same values, up to spelling. -/
theorem decode_spelled_eq {g : Format} (same : f.general = g.general) (lawful : f.Lawful)
    (lawful' : g.Lawful) (identity : f.AllLinks Rebuild.Identity)
    (identity' : g.AllLinks Rebuild.Identity) (bytes : Bytes) :
    (f.decode bytes).map f.spelled = (g.decode bytes).map f.spelled := by
  have spell : f.spelled = g.spelled := by rw [← spelled_general f, same, spelled_general]
  rw [← decode_general lawful identity, same, decode_general lawful' identity', spell]

end Format

/-! ### Resolution -/

namespace Catalog

open Schema

variable {c : Catalog} {registry : Registry} {id : ShapeId} {field hint : Option String}
  {bound : Nat} {f g : Format} {o o' : Outline}

/-- Two registries make the same node of a use of a shape, but for the accessor of a sequence. -/
theorem same_outline (wf : c.schema.WellFormed)
    (h : c.outline (c.schema.use id field hint) = .ok o)
    (h' : { c with registry }.outline (c.schema.use id field hint) = .ok o') :
    o.Same .general o' ∧ o'.parts = o.parts := by
  obtain ⟨links, last, travels⟩ := travelsAs_of_outline wf h
  obtain ⟨declaration, declared, -⟩ := travels.declared
  have fits := fits_of_outline wf travels declared h
  have fits' := @fits_of_outline { c with registry } _ _ _ _ _ _ wf travels _ declared h'
  -- The handlers work on the same shape, inside the same links.
  obtain ⟨shape, inside⟩ := handler_of_outline wf travels h
  obtain ⟨shape', inside'⟩ := @handler_of_outline { c with registry } _ _ _ _ _ _ wf travels h'
  have same {α : Type} {a a' : Handler α} (base : a.base = a'.base)
      (shape : a.shape = c.schema.name last) (shape' : a'.shape = c.schema.name last)
      (inside : a.links = links) (inside' : a'.links = links) : a = a' := by
    cases a
    cases a'
    simp only at base shape shape' inside inside'
    rw [base, shape, shape', inside, inside']
  cases fits with
  | basic base =>
    cases fits' with
    | basic base' =>
      obtain rfl := same (base.trans base'.symm) shape shape' inside inside'
      exact ⟨.basic _, rfl⟩
  | sequence element size a =>
    cases fits' with
    | sequence _ _ a' =>
      obtain ⟨base, _, _⟩ := a
      obtain ⟨base', _, _⟩ := a'
      obtain rfl := shape.trans shape'.symm
      obtain rfl := inside.trans inside'.symm
      exact ⟨.list _ _ _ _ _ rfl, rfl⟩
  | union variants nullable a =>
    cases fits' with
    | union _ _ a' =>
      obtain rfl := same (by cases a.base; cases a'.base; rfl) shape shape' inside inside'
      exact ⟨.union _ _ _ _, rfl⟩
  | container fields a =>
    cases fits' with
    | container _ a' =>
      obtain rfl := same (by cases a.base; cases a'.base; rfl) shape shape' inside inside'
      exact ⟨.container _ _ _, rfl⟩

/-- Under any two registries a shape has formats that differ in the accessors of sequences only. -/
theorem general_eq_of_formatBelow (wf : c.schema.WellFormed)
    (h : c.formatBelow bound (c.schema.use id field hint) = .ok f)
    (h' : { c with registry }.formatBelow bound (c.schema.use id field hint) = .ok g) :
    f.general = g.general := by
  induction bound generalizing id field hint f g with
  | zero => cases h
  | succ bound ih =>
    obtain ⟨o, parts, ho, hp, h⟩ := formatBelow_succ_eq_ok.mp h
    obtain ⟨o', parts', ho', hp', h'⟩ := formatBelow_succ_eq_ok.mp h'
    obtain ⟨outlines, below⟩ := same_outline wf ho ho'
    have each : List.Forall₂ (fun p q => p.general = q.general) parts parts' := by
      refine forall₂_of_common (uses_of_parts ho hp).flip (below ▸ uses_of_parts ho' hp').flip ?_
      exact fun p _ q _ part found found' => ih found.2 found'.2
    have made := @finish_relabel .general c { c with registry } (c.schema.use id field hint)
      (c.schema.use id field hint) _ _ _ _ rfl ⟨rfl, rfl⟩ rfl rfl outlines
      (map_eq_map_iff.mpr each)
    rw [h, h'] at made
    exact Except.ok.inj made

theorem general_eq_of_format (wf : c.schema.WellFormed)
    (h : c.format (c.schema.descriptor id) = .ok f)
    (h' : { c with registry }.format (c.schema.descriptor id) = .ok g) :
    f.general = g.general := by
  rw [← use_none] at h h'
  exact general_eq_of_formatBelow wf h h'

end Catalog

/-! ### Codecs -/

namespace Codec

/-- What two codecs make of a shape, of which they have the formats `f` and `g`, differs only in how
sequences of bytes are held. -/
structure Indistinguishable (c c' : Codec) (shape : ShapeId) (f g : Format) : Prop where
  fixedSize : ((fixedSize shape).run c).1 = ((fixedSize shape).run c').1
  nodes : Everywhere Format.partPairs Format.SameNode (f, g)
  answers : ∀ v, f.HeldAsLists v → AnswersAgree c c' shape shape v
  decode : ∀ bytes, ((decode shape bytes).run c).1.map f.spelled =
    ((Codec.decode shape bytes).run c').1.map f.spelled

variable {schema : Schema} {registry registry' : Registry} {sizes : String → Option UInt64}
  {hasher : Hasher} {c c' : Codec} {shape : ShapeId} {f g : Format}

/-- Where subclasses leave values as they are, the accessors of a registry cannot be told by what a
codec writes, hashes and accepts. -/
theorem listAccessor_unobservable (session : Session { schema, registry, sizes } hasher c)
    (session' : Session { schema, registry := registry', sizes } hasher c') (wf : schema.WellFormed)
    (identity : ∀ id next rebuild, schema.declaration? id = some (.subclass next rebuild) →
      rebuild.Identity)
    (resolved : Catalog.format { schema, registry, sizes } (schema.descriptor shape) = .ok f)
    (resolved' : Catalog.format { schema, registry := registry', sizes } (schema.descriptor shape) =
      .ok g) :
    Indistinguishable c c' shape f g := by
  have same := @Catalog.general_eq_of_format { schema, registry, sizes } registry' _ _ _ wf resolved
    resolved'
  have links {registry : Registry} {f : Format}
      (h : Catalog.format { schema, registry, sizes } (schema.descriptor shape) = .ok f) :
      f.AllLinks Rebuild.Identity := by
    rw [← Schema.use_none] at h
    exact Catalog.allLinks_of_format wf (fun id next rebuild _ => identity id next rebuild) h
  refine
    { fixedSize := ?_
      nodes := Format.everywhere_sameNode same
      answers := answersAgree_of_agreesOn session session' resolved resolved'
        (Format.agreesOn_of_general_eq same)
      decode := fun bytes => ?_ }
  · rw [Codec.fixedSize, run_withFormat session resolved, run_withFormat session' resolved',
      (Format.sameNode_of_relabel same).fixedSize]
  · have read := Format.decode_spelled_eq same (Catalog.lawful_of_format resolved)
      (Catalog.lawful_of_format resolved') (links resolved) (links resolved') bytes
    have named (x : Except DecodeError Value) :
        (x.mapError CodecError.decode).map f.spelled = (x.map f.spelled).mapError .decode := by
      cases x <;> rfl
    rw [Codec.decode, run_withFormat session resolved, run_withFormat session' resolved', named,
      named, read]

/-- Packets of data: the data are bytes, by way of a subclass. -/
def packetSchema : Schema where
  entries := [
    ⟨"uint8", .basic (.uint 1)⟩,
    ⟨"List[uint8,4]", .sequence 0 (.bounded (.literal 4))⟩,
    ⟨"Data", .subclass 1 .ok⟩,
    ⟨"List[Data,2]", .sequence 2 (.bounded (.literal 2))⟩,
    ⟨"Packet", .container [⟨"kind", 0, none⟩, ⟨"data", 3, none⟩]⟩]

theorem wellFormed_packet : packetSchema.WellFormed := by decide

theorem identity_packet {id next : ShapeId} {rebuild : Rebuild}
    (declared : packetSchema.declaration? id = some (.subclass next rebuild)) :
    rebuild.Identity := by
  rcases id with _ | _ | _ | _ | _ | id <;> cases declared
  exact fun _ => rfl

theorem heldAsLists_packet {h h' h'' h₀ h₁ : Heading} {a : Handler ContainerAccessor}
    {a' a'' : Handler ListAccessor} {a₀ a₁ : Handler BasicForm} {r r' : Regime}
    {size : Option Nat} :
    (Format.container h a [.basic h₀ a₀, .list h' a' r (.list h'' a'' r' (.basic h₁ a₁))]
      size).HeldAsLists (.container [.uint 7, .list [.list [.uint 1, .uint 2], .list []]]) := by
  rw [Format.HeldAsLists]
  intro values shown p mem
  cases shown
  rcases List.mem_pair.mp mem with rfl | rfl
  · trivial
  · simp [Format.HeldAsLists, Value.HeldAsList, Value.concrete]

theorem listAccessor_unobservable_packet :
    let sequences : Registry := { Registry.standard with list := [.sequence, .sequence] }
    let c : Codec := { catalog := { schema := packetSchema } }
    let c' : Codec := { catalog := { schema := packetSchema, registry := sequences } }
    let v : Value := .container [.uint 7, .list [.list [.uint 1, .uint 2], .list []]]
    let bytes : Bytes := [7, 5, 0, 0, 0, 8, 0, 0, 0, 10, 0, 0, 0, 1, 2]
    ∃ f g, c.catalog.format (packetSchema.descriptor 4) = .ok f ∧
      c'.catalog.format (packetSchema.descriptor 4) = .ok g ∧ Indistinguishable c c' 4 f g ∧
      f.HeldAsLists v ∧ ((encode 4 v).run c).1 = .ok bytes ∧
      ((decode 4 bytes).run c).1 = .ok (.container [.uint 7, .list [.bytes [1, 2], .bytes []]]) ∧
      ((decode 4 bytes).run c').1 = .ok v := by
  intro sequences c c' v bytes
  obtain ⟨f, resolved⟩ : ∃ f, c.catalog.format (packetSchema.descriptor 4) = .ok f := ⟨_, rfl⟩
  obtain ⟨g, resolved'⟩ : ∃ g, c'.catalog.format (packetSchema.descriptor 4) = .ok g := ⟨_, rfl⟩
  refine ⟨f, g, resolved, resolved', listAccessor_unobservable .start .start wellFormed_packet
    (fun _ _ _ => identity_packet) resolved resolved', ?_, by decide +kernel, by decide +kernel,
    by decide +kernel⟩
  obtain rfl : f = .container _ _ [.basic _ _, .list _ _ _ (.list _ _ _ (.basic _ _))] _ :=
    (Except.ok.inj resolved).symm
  exact heldAsLists_packet

end Codec

end SimpleSerialize
