/-
Bounds of sequences, in memory and on the wire.

A bounded list or a vector has a number of elements that its type admits, whatever calls it has come
through.  The shape that such a model is given when it is registered resolves to a format of the
same bound, which asks a value for its number when it is written or hashed, and a buffer when it is
read.  So the format has nothing to object to an instance, and whatever it reads has as many
elements as the model asks for.  Whether the elements can be lifted is another matter: the functions
of newtypes may put other values in the place of those that were read.  Main statements:

* `Codec.heldTo_of_serves`: a codec never comes upon the bound of such a model;
* `Codec.liftsReads_of_serves`: it lifts whatever it reads, if the functions of newtypes allow it;
* `Codec.bounds_kept`: both, with what calls do to the sequences.
-/
import SimpleSerialize.Proofs.LiftedReads
import SimpleSerialize.Proofs.SequenceCalls
import SimpleSerialize.Proofs.TypedRoundTrip

namespace SimpleSerialize

open Builder

/-! ### Errors of parts -/

/-- The error names a shape of the table that stands at a place or before it. -/
def EncodeError.Within (s : Schema) (id : ShapeId) (e : EncodeError) : Prop :=
  ∃ place ≤ id, e.shape = s.name place

theorem Schema.WellFormed.name_ne {s : Schema} {id place : ShapeId} (wf : s.WellFormed)
    (known : id < s.size) (before : place < id) : s.name place ≠ s.name id := by
  intro same
  have found := wf.find?_name (Nat.lt_trans before known)
  rw [same, wf.find?_name known] at found
  exact Nat.ne_of_gt before (Option.some.inj found)

theorem Format.PartOf.mem_parts {f g : Format} {v w : Value} (part : f.PartOf v g w) :
    g ∈ f.parts := by
  cases part with
  | item => exact List.mem_cons_self
  | body _ _ chosen => exact Variant.mem_of_select chosen
  | field _ _ mem => exact (List.of_mem_zip mem).1

namespace Catalog

variable {c : Catalog} {d : Descriptor} {bound : Nat} {f : Format}

/-- The parts of a format are those of shapes that stand before its own. -/
theorem part_of_format (wf : c.schema.WellFormed) (plain : c.Plain d)
    (h : c.formatBelow (bound + 1) d = .ok f) :
    ∀ p ∈ f.parts, ∃ part, c.Plain part ∧ part.shape < d.shape ∧
      c.formatBelow bound part = .ok p := by
  obtain ⟨outline, parts, ho, each, h⟩ := formatBelow_succ_eq_ok.mp h
  have placed := (List.forall₂_and_left _ _).mpr ⟨fun _ mem => mem, each⟩
  have resolved : ∀ p ∈ parts, ∃ part, c.Plain part ∧ part.shape < d.shape ∧
      c.formatBelow bound part = .ok p :=
    forall_right placed fun part p ⟨inside, found⟩ =>
      ⟨part, plain_of_outline ho part inside, shape_lt_of_part wf plain ho part inside, found⟩
  exact fun p mem => resolved p (mem_of_finish h p mem)

/-- What is wrong with a value at a node names the shape of the node, or the one at the end of its
chain. -/
theorem checkValue_within (wf : c.schema.WellFormed) (plain : c.Plain d)
    (h : c.formatBelow bound d = .ok f) (v : Value) :
    FailsOnly (EncodeError.Within c.schema d.shape) (f.checkValue f.name f.shape v) := by
  intro e failed
  have known : d.shape < c.schema.size := by
    cases bound with
    | zero => cases h
    | succ bound =>
      obtain ⟨outline, -, ho, -, -⟩ := formatBelow_succ_eq_ok.mp h
      exact lt_size_of_outline plain ho
  obtain ⟨links, last, travels, le⟩ := Schema.exists_travelsAs wf known
  have named : e.shape = if e.byAccessor then f.shape else f.name := f.checkValue_names v e failed
  rw [name_of_formatBelow h] at named
  rw [← plain_iff.mp plain] at h
  rw [(handler_of_format wf travels h).1] at named
  split at named
  · exact ⟨last, le, named⟩
  · exact ⟨d.shape, Nat.le_refl _, named⟩

/-- Whatever fails when a value is written names the shape of the value or one that stands before
it. -/
theorem encode_within (wf : c.schema.WellFormed) (plain : c.Plain d)
    (h : c.formatBelow bound d = .ok f) (v : Value) :
    FailsOnly (EncodeError.Within c.schema d.shape) (f.encode v) := by
  induction bound generalizing d f v with
  | zero => cases h
  | succ bound ih =>
    intro e failed
    cases checked : f.checkValue f.name f.shape v with
    | error e' =>
      have same := (f.encode_opens v).first e' checked
      cases same.symm.trans failed
      exact checkValue_within wf plain h v e checked
    | ok =>
      obtain ⟨offset, -, rfl⟩ | ⟨g, w, part, failed⟩ := (f.encode_opens v).rest checked e failed
      · exact ⟨d.shape, Nat.le_refl _, name_of_formatBelow h⟩
      · obtain ⟨below, plain', before, found⟩ := part_of_format wf plain h g part.mem_parts
        obtain ⟨place, le, named⟩ := ih plain' found w e failed
        exact ⟨place, Nat.le_trans le (Nat.le_of_lt before), named⟩

/-- The same when a value is hashed. -/
theorem root_within (wf : c.schema.WellFormed) (plain : c.Plain d)
    (h : c.formatBelow bound d = .ok f) (hasher : Hasher) (v : Value) :
    FailsOnly (EncodeError.Within c.schema d.shape) (f.root hasher v) := by
  induction bound generalizing d f v with
  | zero => cases h
  | succ bound ih =>
    intro e failed
    cases own : v.root? with
    | some r =>
      have recorded : f.root hasher v = .ok r := by
        cases f <;> simp only [Format.root, own]
      cases recorded.symm.trans failed
    | none =>
      cases checked : f.checkValue f.name f.shape v with
      | error e' =>
        have same := (f.root_opens hasher own).first e' checked
        cases same.symm.trans failed
        exact checkValue_within wf plain h v e checked
      | ok =>
        obtain ⟨g, w, part, stopped⟩ := (f.root_opens hasher own).rest checked e failed
        obtain ⟨below, plain', before, found⟩ := part_of_format wf plain h g part.mem_parts
        have inside : EncodeError.Within c.schema below.shape e := by
          obtain failed | ⟨-, failed⟩ := stopped
          · exact ih plain' found w e failed
          · exact encode_within wf plain' found w e failed
        obtain ⟨place, le, named⟩ := inside
        exact ⟨place, Nat.le_trans le (Nat.le_of_lt before), named⟩

/-- The errors of parts do not name the shape of the node. -/
theorem part_ne {g : Format} (wf : c.schema.WellFormed) (plain : c.Plain d)
    (h : c.formatBelow bound d = .ok f) (known : d.shape < c.schema.size) (part : g ∈ f.parts)
    {hasher : Hasher} {w : Value} {e : EncodeError}
    (failed : g.encode w = .error e ∨ g.root hasher w = .error e) :
    e.shape ≠ c.schema.name d.shape := by
  cases bound with
  | zero => cases h
  | succ bound =>
    obtain ⟨below, plain', before, found⟩ := part_of_format wf plain h g part
    obtain ⟨place, le, named⟩ : EncodeError.Within c.schema below.shape e :=
      failed.elim (encode_within wf plain' found w e) (root_within wf plain' found hasher w e)
    exact named ▸ wf.name_ne known (Nat.lt_of_le_of_lt le before)

end Catalog

/-! ### Bounded models -/

namespace Model

/-- The instances of a model are sequences of elements that have a number which a regime admits. -/
structure Bounded (m element : Model) (regime : Regime)
    (view : m.Instance → List element.Instance) : Prop where
  admits : ∀ x, regime.Admits (view x).length
  lower_eq : ∀ x, m.lower x = .list ((view x).map fun y => element.lower y)
  /-- Lifting a sequence of such a number is lifting its elements. -/
  lift_eq : ∀ {v : Value} {items : List Value}, elements m.shapeName v = .ok items →
    regime.Admits items.length → (m.lift v).map view = element.liftItems m.shapeName v
  format_eq : ∀ {f : Format}, m.Matches f → ∃ head a g, f = .list head a regime g
  row : ∀ {s : Schema} {id : ShapeId}, m.DeclaredIn s id →
    ∃ e size, s.Row id m.shapeName (.sequence e size)

variable {element : Model}

/-- As many elements are lifted as there are. -/
theorem length_liftItems {name : String} {v : Value} {items : List Value}
    {xs : List element.Instance} (found : elements name v = .ok items)
    (lifted : element.liftItems name v = .ok xs) : xs.length = items.length := by
  rw [liftItems, found, ok_bind] at lifted
  exact (mapM_eq_ok.mp lifted).length_eq.symm

theorem bounded_boundedList (element : Model) (limit : UInt64) :
    Bounded (.boundedList element limit) element (.list (some limit)) UpTo.items where
  admits x := x.length_le
  lower_eq _ := rfl
  lift_eq {v items} found admits := by
    rw [lift_boundedList_eq]
    cases lifted : element.liftItems (Model.boundedList element limit).shapeName v with
    | error e => rfl
    | ok xs =>
      have fits : xs.length ≤ limit.toNat := (length_liftItems found lifted).symm ▸ admits
      rw [ok_bind, UpTo.ofList?, dif_pos fits]
      rfl
  format_eq matched := by
    cases matched with
    | boundedList head a limit inside => exact ⟨head, a, _, rfl⟩
  row := fun ⟨e, _, row⟩ => ⟨e, _, row⟩

theorem bounded_vector (element : Model) (length : UInt64) :
    Bounded (.vector element length) element (.vector length) Exactly.items where
  admits x := x.length_eq
  lower_eq _ := rfl
  lift_eq {v items} found admits := by
    rw [lift_vector_eq]
    cases lifted : element.liftItems (Model.vector element length).shapeName v with
    | error e => rfl
    | ok xs =>
      have exact : xs.length = length.toNat := (length_liftItems found lifted).trans admits
      rw [ok_bind, Exactly.ofList?, dif_pos exact]
      rfl
  format_eq matched := by
    cases matched with
    | vector head a length inside => exact ⟨head, a, _, rfl⟩
  row := fun ⟨e, _, row⟩ => ⟨e, _, row⟩

/-- A format of the same bound has nothing to object to the value of an instance. -/
theorem Bounded.checkValue_eq_ok {m : Model} {regime : Regime}
    {view : m.Instance → List element.Instance} (bounded : m.Bounded element regime view)
    {f : Format} (matched : m.Matches f) (x : m.Instance) (walk accessor : String) :
    f.checkValue walk accessor (m.lower x) = .ok () := by
  obtain ⟨head, a, g, rfl⟩ := bounded.format_eq matched
  rw [bounded.lower_eq]
  have taken : a.base.items accessor (.list ((view x).map fun y => element.lower y)) =
      .ok ((view x).map fun y => element.lower y) := ListAccessor.items_eq_ok.mpr (.inl rfl)
  have count : regime.check walk ((view x).map fun y => element.lower y).length = .ok () :=
    Regime.check_eq_ok.mpr ((List.length_map _).symm ▸ bounded.admits x)
  calc Format.checkValue walk accessor (.list head a regime g) _
    _ = a.base.items accessor (.list ((view x).map fun y => element.lower y)) >>=
        fun items => regime.check walk items.length := rfl
    _ = .ok () := by rw [taken, ok_bind, count]

end Model

/-! ### Codecs -/

namespace Codec

/-- A codec in some state of a session serves a model at a shape: the model was registered there,
among any other calls, in a schema that was built, and the shape resolves. -/
structure Serves (catalog : Catalog) (hasher : Hasher) (c : Codec) (m : Model) (shape : ShapeId)
    (f : Format) : Prop where
  session : Session catalog hasher c
  registered : ∃ log b, Reached log b ∧ b.build = .ok catalog.schema ∧ (.register m, shape) ∈ log
  resolved : catalog.format (catalog.schema.descriptor shape) = .ok f

/-- A codec never comes upon the bound of a model: neither where instances are written and hashed,
nor where what was read is lifted. -/
structure HeldTo (catalog : Catalog) (hasher : Hasher) (c : Codec) (shape : ShapeId) (f : Format)
    (m element : Model) (regime : Regime) (view : m.Instance → List element.Instance) : Prop where
  /-- Nothing is wrong with the value of an instance at its node, the number of elements included,
  whatever the node and its accessor are called. -/
  sound : ∀ x walk accessor, f.checkValue walk accessor (m.lower x) = .ok ()
  /-- Writing an instance fails at large offsets and in its elements only, and of these the offsets
  alone have errors that name the shape of the model. -/
  encode_error : ∀ x e, ((encodeModel m x).run c).1 = .error e → ∃ e', e = .encode e' ∧
    f.StopsWriting m.shapeName (m.lower x) e' ∧ (e'.shape = m.shapeName →
      ∃ offset, Layout.maxOffset < offset ∧
        e' = .maxSize m.shapeName (.tooLong Layout.maxOffset offset))
  /-- Hashing an instance fails in its elements only, and never names the shape of the model. -/
  root_error : ∀ x e, ((rootOfModel m x).run c).1 = .error e → ∃ e', e = .encode e' ∧
    f.StopsHashing hasher (m.lower x) e' ∧ e'.shape ≠ m.shapeName
  /-- What is read has a number of elements that the regime admits, each of them read from a window.
  It is lifted as these are: to a sequence of what they are lifted to, or with the error of the
  first of them that is not. -/
  lift_eq : ∀ bytes v, ((decode shape bytes).run c).1 = .ok v →
    ∃ items, Model.elements m.shapeName v = .ok items ∧ regime.Admits items.length ∧
      (∀ item ∈ items, ∃ g window, f.WindowOf bytes g window ∧ g.decode window = .ok item) ∧
      (m.lift v).map view = element.liftItems m.shapeName v

/-- A codec lifts to a model whatever it reads at a shape. -/
def LiftsReads (c : Codec) (m : Model) (shape : ShapeId) : Prop :=
  ∀ bytes v, ((decode shape bytes).run c).1 = .ok v →
    ∃ x, m.lift v = .ok x ∧ ((decodeModel m bytes).run c).1 = .ok x

variable {catalog : Catalog} {hasher : Hasher} {c : Codec} {m element : Model} {shape : ShapeId}
  {f : Format} {regime : Regime} {view : m.Instance → List element.Instance}

/-- A codec that serves a bounded model holds it to its bound. -/
theorem heldTo_of_serves (bounded : m.Bounded element regime view)
    (serves : Serves catalog hasher c m shape f) :
    HeldTo catalog hasher c shape f m element regime view := by
  obtain ⟨session, ⟨log, b, reached, built, registered⟩, resolved⟩ := serves
  obtain ⟨wf, declared⟩ := reached.declaredIn built registered
  have found := declared.require_eq wf
  obtain ⟨e, size, row⟩ := bounded.row declared
  have below := resolved
  rw [Catalog.format, ← Schema.use_none] at below
  have matched := m.matches_of_format wf declared (declared.sameTarget wf) below
  have name : f.name = m.shapeName := by
    rw [Catalog.name_of_formatBelow below, Schema.shape_use, row.name_eq]
  have sound := bounded.checkValue_eq_ok matched
  have elsewhere {g : Format} {v w : Value} {e : EncodeError} (part : f.PartOf v g w)
      (failed : g.encode w = .error e ∨ g.root hasher w = .error e) : e.shape ≠ m.shapeName := by
    have other := Catalog.part_ne wf (Catalog.plain_use _ _ _) below
      (Schema.shape_use ▸ row.lt_size) part.mem_parts failed
    rwa [Schema.shape_use, row.name_eq] at other
  refine ⟨sound, fun x e failed => ?_, fun x e failed => ?_, fun bytes v read => ?_⟩
  · rw [encodeModel, run_withShapeOf session found, encode,
      run_withFormat session resolved] at failed
    obtain ⟨e', refused, rfl⟩ := mapError_eq_error.mp failed
    have stopped := (f.encode_opens _).rest (sound x _ _) e' refused
    rw [name] at stopped
    refine ⟨e', rfl, stopped, fun named => ?_⟩
    obtain large | ⟨g, w, part, failed⟩ := stopped
    · exact large
    · exact absurd named (elsewhere part (.inl failed))
  · rw [rootOfModel, run_withShapeOf session found, root,
      run_withFormat session resolved] at failed
    obtain ⟨e', refused, rfl⟩ := mapError_eq_error.mp failed
    have bare : (m.lower x).root? = none := by
      rw [bounded.lower_eq]
      rfl
    have stopped := (f.root_opens hasher bare).rest (sound x _ _) e' refused
    obtain ⟨g, w, part, failed⟩ := stopped
    exact ⟨e', rfl, ⟨g, w, part, failed⟩, elsewhere part (failed.symm.imp And.right id)⟩
  · obtain ⟨head, a, g, rfl⟩ := bounded.format_eq matched
    have read := (decode_eq_ok session resolved).mp read
    obtain ⟨w, items, done, shown, admits, each⟩ := Format.items_of_decode m.shapeName read
    -- The model is no newtype, so that nothing is done with what was put together.
    obtain ⟨links, last, travels, -⟩ := Schema.exists_travelsAs wf row.lt_size
    have unlinked : a.links = [] := (Catalog.handler_of_format wf travels below).2.trans
      (Model.links_of_row row (fun _ _ same => Declaration.noConfusion same) travels)
    have kept : w = v := by
      rw [Handler.finish, unlinked] at done
      exact pure_eq_ok.mp done
    subst kept
    exact ⟨items, shown, admits, fun item mem => ⟨g, each item mem⟩, bounded.lift_eq shown admits⟩

/-- A model is read from bytes by lifting what the codec reads at its shape. -/
theorem run_decodeModel {bytes : Bytes} {v : Value} (session : Session catalog hasher c)
    (found : catalog.schema.require m.shapeName = .ok shape)
    (read : ((decode shape bytes).run c).1 = .ok v) :
    ((decodeModel m bytes).run c).1 = (m.lift v).mapError .decode := by
  rw [decodeModel, run_withShapeOf session found, run_bind_liftM, read, ok_bind]

/-- A codec that serves a model lifts whatever it reads, if the functions that stand under the names
of newtypes keep what these lift. -/
theorem liftsReads_of_serves (serves : Serves catalog hasher c m shape f)
    (lift : m.NewtypesLift catalog.schema) : LiftsReads c m shape := by
  obtain ⟨session, ⟨log, b, reached, built, registered⟩, resolved⟩ := serves
  obtain ⟨wf, declared⟩ := reached.declaredIn built registered
  have found := declared.require_eq wf
  intro bytes v read
  have reads := (decode_eq_ok session resolved).mp read
  obtain ⟨x, lifted⟩ := Model.liftable_of_format wf declared lift resolved v ⟨bytes, reads⟩
  refine ⟨x, lifted, ?_⟩
  rw [run_decodeModel session found read, lifted]
  rfl

/-- Bounded lists and vectors keep their bound: whatever calls are made, their number of elements is
one that their type admits, a call that would break the bound is refused and changes nothing, and
the others are answered as by a plain list.  A codec with whose table they were registered therefore
never comes upon the bound, neither where they are written and hashed nor where what was read is
lifted; and it lifts whatever it reads, provided that the functions that stand under the names of
the newtypes in the element keep what these lift. -/
theorem bounds_kept (element : Model) (n : UInt64) :
    KeepsBound (Regime.list (some n)).Admits UpTo.items
        (@ListCall.plain element (Model.boundedList element n).shapeName)
        (ListCall.refusal n) (ListCall.step n) ∧
      KeepsBound (Regime.vector n).Admits Exactly.items
        (@VectorCall.plain element n (Model.vector element n).shapeName)
        VectorCall.refusal VectorCall.step ∧
      (∀ catalog hasher c shape f, Serves catalog hasher c (.boundedList element n) shape f →
        HeldTo catalog hasher c shape f (.boundedList element n) element (.list (some n))
            UpTo.items ∧
          (element.NewtypesLift catalog.schema →
            LiftsReads c (.boundedList element n) shape)) ∧
      ∀ catalog hasher c shape f, Serves catalog hasher c (.vector element n) shape f →
        HeldTo catalog hasher c shape f (.vector element n) element (.vector n) Exactly.items ∧
          (element.NewtypesLift catalog.schema → LiftsReads c (.vector element n) shape) :=
  ⟨ListCall.keepsBound, VectorCall.keepsBound,
    fun _ _ _ _ _ serves => ⟨heldTo_of_serves (Model.bounded_boundedList element n) serves,
      fun lift => liftsReads_of_serves serves lift⟩,
    fun _ _ _ _ _ serves => ⟨heldTo_of_serves (Model.bounded_vector element n) serves,
      fun lift => liftsReads_of_serves serves lift⟩⟩

/-- Numbers with a name of their own, of which one is too large to be written. -/
theorem bounds_kept_wei :
    let element : Model := .newtype "Wei" .uint256 .ok
    let rows : List Entry := [⟨"uint256", .basic (.uint 32)⟩, ⟨"Wei", .subclass 0 .ok⟩,
      ⟨"List[Wei,2]", .sequence 1 (.bounded (.literal 2))⟩,
      ⟨"Vector[Wei,2]", .sequence 1 (.vector (.literal 2))⟩]
    let c : Codec := { catalog := { schema := { entries := rows } } }
    let full : UpTo Nat 2 := ⟨[3, 4], Nat.le_refl 2⟩
    let large : Exactly Nat 2 := ⟨[2 ^ 256, 0], rfl⟩
    let bytes : Bytes := 3 :: List.replicate 31 0 ++ 4 :: List.replicate 31 0
    @ListCall.step element 2 (.push (5 : Nat)) full = (.refused (.tooLong 2 3), full) ∧
      (∃ e, ((encodeModel (.vector element 2) large).run c).1 = .error (.encode e) ∧
        e.shape ≠ "Vector[Wei,2]") ∧
      (∃ e, ((rootOfModel (.vector element 2) large).run c).1 = .error (.encode e) ∧
        e.shape ≠ "Vector[Wei,2]") ∧
      ∃ x, ((decodeModel (.boundedList element 2) bytes).run c).1 = .ok x := by
  intro element rows c full large bytes
  have reached : Reached
      [(.register (.boundedList element 2), 2), (.register (.vector element 2), 3)]
      { schema := { entries := rows } } :=
    .call (.register (.vector element 2))
      (.call (.register (.boundedList element 2)) .start nofun) nofun
  obtain ⟨f, list⟩ : ∃ f, Serves c.catalog .sha256 c (.boundedList element 2) 2 f :=
    ⟨_, .start, ⟨_, _, reached, rfl, List.mem_cons_self⟩, rfl⟩
  obtain ⟨g, vector⟩ : ∃ g, Serves c.catalog .sha256 c (.vector element 2) 3 g :=
    ⟨_, .start, ⟨_, _, reached, rfl, List.mem_cons_of_mem _ List.mem_cons_self⟩, rfl⟩
  have overflow : ((encodeModel (.vector element 2) large).run c).1 =
      .error (.encode (.integerOverflow "uint256" 32)) := by decide +kernel
  have hashing : ((rootOfModel (.vector element 2) large).run c).1 =
      .error (.encode (.integerOverflow "uint256" 32)) := by decide +kernel
  have decoded : ((decode 2 bytes).run c).1 = .ok (.list [.bigUint 3, .bigUint 4]) := by
    decide +kernel
  have name : (Model.vector element 2).shapeName = "Vector[Wei,2]" := by decide +kernel
  obtain ⟨lists, -, heldList, heldVector⟩ := bounds_kept element 2
  refine ⟨lists.refuses (.push (5 : Nat)) full ?_, ⟨_, overflow, ?_⟩, ⟨_, hashing, ?_⟩, ?_⟩
  · show ¬ 3 ≤ 2
    decide
  · obtain ⟨e, same, -, atNode⟩ := (heldVector _ _ _ _ _ vector).1.encode_error large _ overflow
    cases same
    rw [← name]
    intro named
    obtain ⟨offset, -, other⟩ := atNode named
    cases other
  · obtain ⟨e, same, -, other⟩ := (heldVector _ _ _ _ _ vector).1.root_error large _ hashing
    cases same
    exact name ▸ other
  · have lift : element.NewtypesLift c.catalog.schema := by
      refine ⟨fun id next rebuild named declared => ?_, trivial⟩
      match id, declared with
      | 0, declared | 2, declared | 3, declared | _ + 4, declared => cases declared
      | 1, declared =>
        cases declared
        exact Model.keeps_of_inert (Rebuild.Identity.inert fun v => rfl)
    obtain ⟨x, -, read⟩ := (heldList _ _ _ _ _ list).2 lift bytes _ decoded
    exact ⟨x, read⟩

/-- What was read need not be lifted.  A function of a newtype may put something else in the place
of a number.  And a codec knows the shape of a model by its name alone: where something else was
declared under that name, it also comes upon bounds that are not those of the model. -/
theorem reads_not_lifted :
    let flag : Rebuild := fun _ => .ok (.bool true)
    let odd : Model := .newtype "Odd" (.uint .one) flag
    let rows : List Entry := [⟨"uint8", .basic (.uint 1)⟩, ⟨"Odd", .subclass 0 flag⟩,
      ⟨"List[Odd,2]", .sequence 1 (.bounded (.literal 2))⟩]
    let others : List Entry := [⟨"uint8", .basic (.bytes 1)⟩,
      ⟨"List[uint8,4]", .sequence 0 (.bounded (.literal 4))⟩, ⟨"uint64", .basic (.uint 8)⟩,
      ⟨"Vector[uint64,2]", .sequence 2 (.vector (.literal 3))⟩]
    let c : Codec := { catalog := { schema := { entries := rows } } }
    let d : Codec := { catalog := { schema := { entries := others } } }
    let numbers : Model := .boundedList (.uint .one) 4
    let pair : Exactly (Fin (2 ^ 64)) 2 := ⟨[1, 2], rfl⟩
    (∃ f, Serves c.catalog .sha256 c (.boundedList odd 2) 2 f) ∧
      ((decode 2 [7]).run c).1 = .ok (.list [.bool true]) ∧
      ((decodeModel (.boundedList odd 2) [7]).run c).1 =
        .error (.decode (.modelMismatch "uint8" "integer" "bool")) ∧
      (∃ log b, Reached log b ∧ b.build = .ok d.catalog.schema) ∧
      d.catalog.schema.require numbers.shapeName = .ok 1 ∧
      ((decode 1 [7]).run d).1 = .ok (.list [.bytes [7]]) ∧
      ((decodeModel numbers [7]).run d).1 =
        .error (.decode (.modelMismatch "uint8" "integer" "bytes")) ∧
      ((encodeModel (.vector (.uint .eight) 2) pair).run d).1 =
        .error (.encode (.vectorLength "Vector[uint64,2]" (.wrongLength 3 2))) := by
  intro flag odd rows others c d numbers pair
  have registered : Reached [(.register (.boundedList odd 2), 2)] { schema := { entries := rows } } :=
    .call (.register (.boundedList odd 2)) .start nofun
  have declared : ∃ log, Reached log { schema := { entries := others } } := by
    refine ⟨_, .call (.declare "Vector[uint64,2]" (.sequence 2 (.vector (.literal 3))))
      (.call (.basic (.uint 8)) (.call (.list 0 (some (.literal 4)))
        (.call (.declare "uint8" (.basic (.bytes 1))) .start nofun) ?_) nofun) ?_⟩ <;>
      decide +kernel
  obtain ⟨log, declared⟩ := declared
  have fresh : Session c.catalog .sha256 c := .start
  have fresh' : Session d.catalog .sha256 d := .start
  have served : ∃ f, Serves c.catalog .sha256 c (.boundedList odd 2) 2 f :=
    ⟨_, fresh, ⟨_, _, registered, rfl, List.mem_singleton_self _⟩, rfl⟩
  have read : ((decode 2 [7]).run c).1 = .ok (.list [.bool true]) := by decide +kernel
  have found : d.catalog.schema.require numbers.shapeName = .ok 1 := by decide +kernel
  have other : ((decode 1 [7]).run d).1 = .ok (.list [.bytes [7]]) := by decide +kernel
  refine ⟨served, read, ?_, ⟨log, _, declared, rfl⟩, found, other, ?_, by decide +kernel⟩
  · exact run_decodeModel fresh rfl read
  · exact run_decodeModel fresh' found other

end Codec

end SimpleSerialize
