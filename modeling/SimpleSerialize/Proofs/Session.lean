/-
Sessions: a codec and the operations on it, one after the other.

Operations share the cache of nodes that were resolved so far, so that the answer to one could
depend on those before it.  It does not: every entry of the cache is the format of the use it is
kept for (`Catalog.Faithful`), and a shape that resolves is given the same format in every state
that the codec can be in.  Main statements:

* `Catalog.resolveBelow_sound`: resolution through a faithful cache keeps it faithful and gives the
  format of the use of a shape that it is asked for;
* `Codec.run_withFormat`: at a state of a session, an operation on a shape that resolves works on
  the format of that shape.
-/
import SimpleSerialize.Codec
import SimpleSerialize.Proofs.Resolution

namespace SimpleSerialize

namespace Catalog

/-! ### Any accessors -/

section

variable {B φ L U C : Type} {c : Catalog B L U C} {d : Descriptor}

/-- The use of a shape that an entry of a cache is kept for, outside any field. -/
def useOf (c : Catalog B L U C) (key : CacheKey) : Descriptor :=
  (c.schema.descriptor key.shape).withHint key.hint

/-- The use of a shape as the table of shapes describes it. -/
def Plain (c : Catalog B L U C) (d : Descriptor) : Prop := (c.useOf d.cacheKey).inField d.field = d

theorem useOf_inField (key : CacheKey) : (c.useOf key).inField none = c.useOf key := by
  rw [useOf, Schema.descriptor]
  split <;> rfl

/-- The key of a use says all of it but its field. -/
theorem Plain.inField_none (plain : c.Plain d) : d.inField none = c.useOf d.cacheKey := by
  calc d.inField none = (c.useOf d.cacheKey).inField none := congrArg (·.inField none) plain.symm
    _ = c.useOf d.cacheKey := useOf_inField _

theorem plain_descriptor (id : ShapeId) : c.Plain (c.schema.descriptor id) := by
  simp only [Plain, useOf, Descriptor.cacheKey, Schema.shape_descriptor]
  simp only [Schema.descriptor, Descriptor.withHint, Descriptor.inField]

theorem plain_fieldDescriptor (field : Field) : c.Plain (c.fieldDescriptor field) := by
  simp only [Plain, useOf, fieldDescriptor, Descriptor.forField, Descriptor.cacheKey,
    Descriptor.withHint, Schema.shape_descriptor, Descriptor.inField]

variable [Accessor B] [Formed B φ] [Accessor L] [Accessor U] [Accessor C]

/-- The parts of a node are uses of shapes as the table describes them. -/
theorem plain_of_outline {outline : Outline φ L U C} (h : c.outline d = .ok outline) :
    ∀ part ∈ outline.parts, c.Plain part := by
  rw [Catalog.outline, bind_eq_ok] at h
  obtain ⟨access, -, h⟩ := h
  intro part hpart
  split at h
  · cases h
    cases hpart
  · cases h
    obtain rfl := List.mem_singleton.mp hpart
    exact plain_descriptor _
  · cases h
    obtain ⟨id, -, rfl⟩ := List.mem_map.mp hpart
    exact plain_descriptor id
  · cases h
    obtain ⟨field, -, rfl⟩ := List.mem_map.mp hpart
    exact plain_fieldDescriptor field
  · cases h

/-- One node of a resolution, from what the cache, the outline and the parts have to say. -/
theorem run_resolveBelow_succ [Sized φ] {cache : FormatCache φ L U C} (bound : Nat) :
    (c.resolveBelow (bound + 1) d).run cache =
      match cache.lookup d.cacheKey with
      | some f => (.ok (f.forField d.field), cache)
      | none =>
        match c.outline d with
        | .error e => (.error e, cache)
        | .ok outline =>
          match (outline.parts.mapM (c.resolveBelow bound)).run cache with
          | (.error e, cache) => (.error e, cache)
          | (.ok parts, cache) =>
            match c.finish d outline parts with
            | .error e => (.error e, cache)
            | .ok f => (.ok f, (d.cacheKey, f) :: cache) := by
  have got : (get : Cached φ L U C (FormatCache φ L U C)).run cache = (.ok cache, cache) := rfl
  rw [resolveBelow, run_bind, got]
  simp only
  cases cache.lookup d.cacheKey with
  | some f => rfl
  | none =>
    simp only [run_bind, run_liftM]
    cases c.outline d with
    | error e => rfl
    | ok outline =>
      simp only
      generalize (outline.parts.mapM (c.resolveBelow bound)).run cache = outcome
      obtain ⟨_ | parts, cache⟩ := outcome
      · rfl
      · simp only
        cases c.finish d outline parts <;> rfl

end

/-! ### Stock accessors -/

variable {c : Catalog} {d : Descriptor} {f : Format} {cache : FormatCache}

/-- Every entry of a cache is the format of the use it is kept for. -/
def Faithful (c : Catalog) (cache : FormatCache) : Prop :=
  ∀ key f, cache.lookup key = some f →
    ∃ bound, c.formatBelow bound (c.useOf key) = .ok (f.forField none)

theorem faithful_nil : c.Faithful [] := by
  intro key f h
  cases h

/-- A format found for a use of a shape may be kept for it. -/
theorem faithful_cons {bound : Nat} (plain : c.Plain d) (faithful : c.Faithful cache)
    (h : c.formatBelow bound d = .ok f) : c.Faithful ((d.cacheKey, f) :: cache) := by
  intro key g hg
  rw [List.lookup_cons] at hg
  split at hg
  · rename_i same
    cases hg
    obtain rfl : key = d.cacheKey := by simpa using same
    -- The key says nothing of the field, and neither does what is kept for it.
    exact ⟨bound, plain.inField_none ▸ formatBelow_inField c.registry.blind h⟩
  · exact faithful key g hg

/-- An entry of a faithful cache, renamed, is the format of the use it is taken for. -/
theorem format_of_lookup (plain : c.Plain d) (faithful : c.Faithful cache)
    (h : cache.lookup d.cacheKey = some f) :
    ∃ bound, c.formatBelow bound d = .ok (f.forField d.field) := by
  obtain ⟨bound, hb⟩ := faithful _ _ h
  have found : c.formatBelow bound ((c.useOf d.cacheKey).inField d.field) = _ :=
    formatBelow_inField c.registry.blind hb
  rw [plain] at found
  refine ⟨bound, found.trans ?_⟩
  cases f <;> rfl

/-- What is asked of a resolution that starts at a faithful cache: the cache stays faithful, a result
is right for some bound, and what is found without a cache is the result. -/
structure Sound (c : Catalog) {α : Type} (right : (bound : Nat) → α → Prop) (bound : Nat)
    (outcome : Except SchemaError α × FormatCache) : Prop where
  faithful : c.Faithful outcome.2
  right_of_ok : ∀ a, outcome.1 = .ok a → ∃ b, right b a
  ok_of_right : ∀ a, right bound a → outcome.1 = .ok a

/-- Some formats are found for some uses of shapes, one by one. -/
def AreFormats (c : Catalog) (ds : List Descriptor) (bound : Nat) (fs : List Format) : Prop :=
  List.Forall₂ (fun d f => c.formatBelow bound d = .ok f) ds fs

theorem areFormats_mono {ds : List Descriptor} {fs : List Format} {bound more : Nat}
    (le : bound ≤ more) (h : c.AreFormats ds bound fs) : c.AreFormats ds more fs :=
  h.imp fun _ _ => formatBelow_mono le

theorem mapM_resolveBelow_sound {bound : Nat} {ds : List Descriptor}
    (each : ∀ d ∈ ds, ∀ cache, c.Faithful cache →
      c.Sound (c.formatBelow · d = .ok ·) bound ((c.resolveBelow bound d).run cache))
    (faithful : c.Faithful cache) :
    c.Sound (c.AreFormats ds) bound ((ds.mapM (c.resolveBelow bound)).run cache) := by
  induction ds generalizing cache with
  | nil =>
    rw [List.mapM_nil, run_pure]
    refine ⟨faithful, fun fs h => ?_, fun fs h => ?_⟩
    · cases h
      exact ⟨0, .nil⟩
    · cases h
      rfl
  | cons d ds ih =>
    have first := each d List.mem_cons_self cache faithful
    rw [List.mapM_cons, run_bind]
    generalize (c.resolveBelow bound d).run cache = outcome at first
    obtain ⟨result, cache⟩ := outcome
    cases result with
    | error e =>
      refine ⟨first.faithful, fun fs h => (nomatch h), fun fs h => ?_⟩
      cases h with
      | cons head tail => cases first.ok_of_right _ head
    | ok f =>
      have others := ih (fun d hd => each d (List.mem_cons_of_mem _ hd)) first.faithful
      obtain ⟨b, found⟩ := first.right_of_ok f rfl
      simp only [run_bind]
      generalize (ds.mapM (c.resolveBelow bound)).run cache = outcome at others
      obtain ⟨result, cache⟩ := outcome
      cases result with
      | error e =>
        refine ⟨others.faithful, fun fs h => (nomatch h), fun fs h => ?_⟩
        cases h with
        | cons head tail => cases others.ok_of_right _ tail
      | ok rest =>
        refine ⟨others.faithful, fun fs h => ?_, fun fs h => ?_⟩
        · cases h
          obtain ⟨b', foundRest⟩ := others.right_of_ok rest rfl
          -- The first and the others were found in rooms of their own; the larger holds both.
          refine ⟨max b b', .cons ?_ ?_⟩
          · exact formatBelow_mono (Nat.le_max_left b b') found
          · exact areFormats_mono (Nat.le_max_right b b') foundRest
        · cases h with
          | cons head tail =>
            rw [formatBelow_unique head found]
            cases others.ok_of_right _ tail
            rfl

/-- Resolution through a faithful cache keeps it faithful and gives the format of the use of a shape
that it is asked for. -/
theorem resolveBelow_sound {bound : Nat} (plain : c.Plain d) (faithful : c.Faithful cache) :
    c.Sound (c.formatBelow · d = .ok ·) bound ((c.resolveBelow bound d).run cache) := by
  induction bound generalizing d cache with
  | zero =>
    refine ⟨faithful, fun f h => ?_, fun f h => ?_⟩
    · cases h
    · cases h
  | succ bound ih =>
    rw [run_resolveBelow_succ]
    cases hit : cache.lookup d.cacheKey with
    | some f =>
      obtain ⟨b, found⟩ := format_of_lookup plain faithful hit
      refine ⟨faithful, fun g h => ?_, fun g h => ?_⟩
      · cases h
        exact ⟨b, found⟩
      · exact congrArg Except.ok (formatBelow_unique found h)
    | none =>
      cases ho : c.outline d with
      | error e =>
        refine ⟨faithful, fun g h => (nomatch h), fun g h => ?_⟩
        obtain ⟨outline, -, ho', -⟩ := formatBelow_succ_eq_ok.mp h
        cases ho.symm.trans ho'
      | ok outline =>
        have below := mapM_resolveBelow_sound
          (fun d hd cache faithful => ih (plain_of_outline ho d hd) faithful) faithful
        simp only
        generalize (outline.parts.mapM (c.resolveBelow bound)).run cache = outcome at below
        obtain ⟨result, cache⟩ := outcome
        -- What is found without a cache finds the same outline and the same parts.
        have same {g : Format} (h : c.formatBelow (bound + 1) d = .ok g) :
            ∃ parts, result = .ok parts ∧ c.finish d outline parts = .ok g := by
          obtain ⟨outline', parts, ho', hp, h⟩ := formatBelow_succ_eq_ok.mp h
          cases ho.symm.trans ho'
          exact ⟨parts, below.ok_of_right parts hp, h⟩
        cases result with
        | error e =>
          refine ⟨below.faithful, fun g h => (nomatch h), fun g h => ?_⟩
          obtain ⟨_, hp, -⟩ := same h
          cases hp
        | ok parts =>
          obtain ⟨b, hp⟩ := below.right_of_ok parts rfl
          cases hf : c.finish d outline parts with
          | error e =>
            simp only [hf]
            refine ⟨below.faithful, fun g h => (nomatch h), fun g h => ?_⟩
            obtain ⟨_, hp, h⟩ := same h
            cases hp
            cases hf.symm.trans h
          | ok f =>
            simp only [hf]
            have found : c.formatBelow (b + 1) d = .ok f :=
              formatBelow_succ_eq_ok.mpr ⟨outline, parts, ho, hp, hf⟩
            refine ⟨faithful_cons plain below.faithful found, fun g h => ?_, fun g h => ?_⟩
            · cases h
              exact ⟨b + 1, found⟩
            · exact congrArg Except.ok (formatBelow_unique found h)

end Catalog

/-! ### Sessions -/

namespace Codec

/-- The states of a codec that starts without any node resolved. -/
inductive Session (catalog : Catalog) (hasher : Hasher) : Codec → Prop
  | start : Session catalog hasher { catalog, hasher }
  | step {c : Codec} (shape : ShapeId) :
    Session catalog hasher c → Session catalog hasher ((format shape).run c).2

namespace Session

variable {catalog : Catalog} {hasher : Hasher} {c : Codec}

theorem catalog_eq (session : Session catalog hasher c) : c.catalog = catalog := by
  induction session with
  | start => rfl
  | step shape _ ih => exact ih

theorem hasher_eq (session : Session catalog hasher c) : c.hasher = hasher := by
  induction session with
  | start => rfl
  | step shape _ ih => exact ih

theorem faithful (session : Session catalog hasher c) : catalog.Faithful c.cache := by
  induction session with
  | start => exact Catalog.faithful_nil
  | step shape session ih =>
    have same := session.catalog_eq
    subst same
    exact (Catalog.resolveBelow_sound (Catalog.plain_descriptor shape) ih).faithful

/-- Whatever an operation does with a format, it leaves a state of the session. -/
theorem withFormat {α : Type} (session : Session catalog hasher c) (shape : ShapeId)
    (use : Hasher → Format → Except CodecError α) :
    Session catalog hasher ((withFormat shape use).run c).2 :=
  session.step shape

end Session

variable {catalog : Catalog} {hasher : Hasher} {c : Codec} {shape : ShapeId} {f : Format}

/-- At a state of a session, an operation on a shape that resolves works on its format. -/
theorem run_withFormat {α : Type} (session : Session catalog hasher c)
    (resolved : catalog.format (catalog.schema.descriptor shape) = .ok f)
    (use : Hasher → Format → Except CodecError α) :
    ((withFormat shape use).run c).1 = use hasher f := by
  have sound := @Catalog.resolveBelow_sound catalog _ _ catalog.schema.size
    (Catalog.plain_descriptor shape) session.faithful
  have found := sound.ok_of_right f resolved
  have same : ((format shape).run c).1 = .ok f := by
    have result : ((format shape).run c).1 =
      ((c.catalog.resolve (c.catalog.schema.descriptor shape)).run c.cache).1 := rfl
    rw [result, session.catalog_eq]
    exact found
  calc ((withFormat shape use).run c).1
    _ = ((format shape).run c).1.mapError .schema >>= use c.hasher := rfl
    _ = use hasher f := by rw [same, session.hasher_eq]; rfl

theorem encode_eq_ok (session : Session catalog hasher c)
    (resolved : catalog.format (catalog.schema.descriptor shape) = .ok f) {v : Value}
    {bytes : Bytes} : ((encode shape v).run c).1 = .ok bytes ↔ f.encode v = .ok bytes := by
  rw [encode, run_withFormat session resolved, mapError_eq_ok]

theorem decode_eq_ok (session : Session catalog hasher c)
    (resolved : catalog.format (catalog.schema.descriptor shape) = .ok f) {v : Value}
    {bytes : Bytes} : ((decode shape bytes).run c).1 = .ok v ↔ f.decode bytes = .ok v := by
  rw [decode, run_withFormat session resolved, mapError_eq_ok]

theorem root_eq_ok (session : Session catalog hasher c)
    (resolved : catalog.format (catalog.schema.descriptor shape) = .ok f) {v : Value} {r : Root} :
    ((root shape v).run c).1 = .ok r ↔ f.root hasher v = .ok r := by
  rw [root, run_withFormat session resolved, mapError_eq_ok]

theorem rootOfBytes_eq_ok (session : Session catalog hasher c)
    (resolved : catalog.format (catalog.schema.descriptor shape) = .ok f) {bytes : Bytes}
    {r : Root} : ((rootOfBytes shape bytes).run c).1 = .ok r ↔
      ∃ v, f.decode bytes = .ok v ∧ f.root hasher v = .ok r := by
  rw [rootOfBytes, run_withFormat session resolved, bind_eq_ok]
  simp only [mapError_eq_ok]

end Codec

end SimpleSerialize
