/-
The root that signatures are made for.

A signature over a container is made for the root of its fields without the last one, in which the
signature itself is kept.  That root is the root of a shorter container, with a tree of its own depth;
neither what stands in the last field nor an overlay on the container itself is seen from it.  Main
statements:

* `Format.signingRoot_eq_root`: the signing root is the root of the shorter container;
* `Catalog.shortened_of_format`: a shape that is declared with all fields but the last has those
  fields in its format;
* `Codec.signingRoot_of_container`: the same of codecs, and what the signing root does not see.
-/
import SimpleSerialize.Proofs.Agreement
import SimpleSerialize.Proofs.Matching

namespace SimpleSerialize

/-! ### Formats -/

namespace Format

variable {hasher : Hasher} {head head' : Heading} {a a' : Handler ContainerAccessor}
  {fields : List Format} {size size' : Option Nat} {v : Value} {values : List Value}

/-- Fields and values that are equally many lose their last pair when both lose their last entry. -/
theorem dropLast_zip_eq (arity : values.length = fields.length) :
    fields.dropLast.zip values = fields.dropLast.zip values.dropLast := by
  rw [List.dropLast_eq_take, List.dropLast_eq_take, arity, take_zip_eq]
  exact List.take_zipWith

/-- A value that shows as many fields as its shape has is opened without an error. -/
theorem opened_bind {α : Type} {next : List Value → Except EncodeError α}
    (shown : v.concrete = some (.container values)) (arity : values.length = fields.length) :
    (do
      let values ← a.fields (← seen head.name v)
      checkArity head.name fields.length values.length
      next values) = next values := by
  have seen : seen head.name v = .ok (.container values) := seen_eq_ok.mpr shown
  have held : a.fields (.container values) = .ok values := ContainerAccessor.fieldsOf_eq_ok.mpr rfl
  have counted : checkArity head.name fields.length values.length = .ok () :=
    checkArity_eq_ok.mpr arity.symm
  rw [seen, ok_bind, held, ok_bind, counted, ok_bind]

/-- The root of a container, from its fields paired with their values. -/
theorem root_container (arity : values.length = fields.length) :
    (container head a fields size).root hasher (.container values) =
      ((fields.zip values).mapM fun p => p.1.root hasher p.2) >>= fun roots =>
        pure (hasher.merkleize roots none) := by
  simp only [root, Value.root?, rooters_eq]
  rw [opened_bind rfl arity, List.zip_map_left, List.mapM_map]
  rfl

/-- The signing root of a container is the root of the container without the last field, whatever
that one is called and however it is handled. -/
theorem signingRoot_eq_root (shown : v.concrete = some (.container values))
    (arity : values.length = fields.length) :
    (container head a fields size).signingRoot hasher v =
      (container head' a' fields.dropLast size').root hasher (.container values.dropLast) := by
  rw [root_container (by simp [arity]), ← dropLast_zip_eq arity, signingRoot]
  exact opened_bind shown arity

/-- It is there if the fields before the last have roots. -/
theorem exists_signingRoot (shown : v.concrete = some (.container values))
    (arity : values.length = fields.length) :
    (∃ r, (container head a fields size).signingRoot hasher v = .ok r) ↔
      ∀ p ∈ fields.dropLast.zip values.dropLast, ∃ r, p.1.root hasher p.2 = .ok r := by
  have signed : (container head a fields size).signingRoot hasher v =
      (container head a fields.dropLast size).root hasher (.container values.dropLast) :=
    signingRoot_eq_root shown arity
  rw [signed, root_container (by simp [arity])]
  simp only [bind_eq_ok, pure_eq_ok, mapM_eq_ok]
  constructor
  · rintro ⟨_, roots, each, -⟩
    exact forall_left each fun p r hashed => ⟨r, hashed⟩
  · intro each
    obtain ⟨roots, hashed⟩ := exists_forall₂ each
    exact ⟨_, roots, hashed, rfl⟩

end Format

/-! ### Shapes -/

/-- A container shape that is declared with all the fields of another but the last. -/
def Schema.Shortens (s : Schema) (shape' shape : ShapeId) : Prop :=
  ∃ fields links last links' last', s.TravelsAs shape links last ∧
    s.declaration? last = some (.container fields) ∧ s.TravelsAs shape' links' last' ∧
    s.declaration? last' = some (.container fields.dropLast)

/-- In its format it has the fields of the other but the last. -/
theorem Catalog.shortened_of_format {c : Catalog} {shape shape' : ShapeId} {head : Heading}
    {a : Handler ContainerAccessor} {fields : List Format} {size : Option Nat} {g : Format}
    (wf : c.schema.WellFormed) (shortens : c.schema.Shortens shape' shape)
    (resolved : c.format (c.schema.descriptor shape) = .ok (.container head a fields size))
    (resolved' : c.format (c.schema.descriptor shape') = .ok g) :
    ∃ head' a' size', g = .container head' a' fields.dropLast size' := by
  obtain ⟨declared, links, last, links', last', travels, here, travels', here'⟩ := shortens
  rw [← Schema.use_none] at resolved resolved'
  obtain ⟨below, _, _, _, _, same, each⟩ := container_of_format wf travels here resolved
  cases same
  obtain ⟨below', head', a', fields', size', rfl, each'⟩ :=
    container_of_format wf travels' here' resolved'
  refine ⟨head', a', size', ?_⟩
  have shorter : List.Forall₂ (fun x g =>
      c.formatBelow below (c.schema.use x.shape (some x.name) x.hint) = .ok g)
      declared.dropLast fields.dropLast := by
    rw [List.dropLast_eq_take, List.dropLast_eq_take, each.length_eq]
    exact List.forall₂_take _ each
  -- A use of a field has one format, in whichever container it stands.
  have same : List.Forall₂ Eq fields' fields.dropLast :=
    forall₂_of_common each'.flip shorter.flip fun f _ g _ x found found' =>
      formatBelow_unique found found'
  rw [List.forall₂_eq_eq_eq] at same
  rw [same]

/-! ### Codecs -/

namespace Codec

variable {catalog : Catalog} {hasher : Hasher} {c : Codec} {shape : ShapeId} {head : Heading}
  {a : Handler ContainerAccessor} {fields : List Format} {size : Option Nat} {v : Value}
  {values : List Value}

/-- The signing root of a value that shows a container is there exactly when all its fields but the
last have roots.  It is the root of the container of these fields, and the same for every value that
shows them, whatever it shows in the last field and whatever overlays are on it. -/
theorem signingRoot_of_container (session : Session catalog hasher c)
    (wf : catalog.schema.WellFormed)
    (resolved : catalog.format (catalog.schema.descriptor shape) =
      .ok (.container head a fields size))
    (shown : v.concrete = some (.container values)) (arity : values.length = fields.length) :
    ((∃ r, ((signingRoot shape v).run c).1 = .ok r) ↔
      ∀ p ∈ fields.dropLast.zip values.dropLast, ∃ r, p.1.root hasher p.2 = .ok r) ∧
    (∀ head' a' size', ((signingRoot shape v).run c).1 =
      ((Format.container head' a' fields.dropLast size').root hasher
        (.container values.dropLast)).mapError .encode) ∧
    (∀ c' shape' g, Session catalog hasher c' → catalog.schema.Shortens shape' shape →
      catalog.format (catalog.schema.descriptor shape') = .ok g →
        ((signingRoot shape v).run c).1 = ((root shape' (.container values.dropLast)).run c').1) ∧
    ∀ c' w others, Session catalog hasher c' → w.concrete = some (.container others) →
      others.length = values.length → others.dropLast = values.dropLast →
        ((signingRoot shape w).run c').1 = ((signingRoot shape v).run c).1 := by
  have signed {c' : Codec} (session' : Session catalog hasher c') {w : Value} {others : List Value}
      (shown : w.concrete = some (.container others)) (arity : others.length = fields.length)
      (head' : Heading) (a' : Handler ContainerAccessor) (size' : Option Nat) :
      ((signingRoot shape w).run c').1 = ((Format.container head' a' fields.dropLast size').root
        hasher (.container others.dropLast)).mapError .encode := by
    rw [signingRoot, run_withFormat session' resolved, Format.signingRoot_eq_root shown arity]
  refine ⟨?_, signed session shown arity, fun c' shape' g session' shortens resolved' => ?_,
    fun c' w others session' shown' alike init => ?_⟩
  · simp only [signingRoot, run_withFormat session resolved, mapError_eq_ok]
    exact Format.exists_signingRoot shown arity
  · obtain ⟨head', a', size', rfl⟩ := Catalog.shortened_of_format wf shortens resolved resolved'
    rw [signed session shown arity head' a' size', root, run_withFormat session' resolved']
  · rw [signed session' shown' (alike.trans arity) head a size, init,
      signed session shown arity head a size]

/-- A letter with its seal, and one without. -/
def letterSchema : Schema where
  entries := [
    ⟨"uint16", .basic (.uint 2)⟩,
    ⟨"Seal", .basic (.bytes 4)⟩,
    ⟨"Letter", .container [⟨"number", 0, none⟩, ⟨"seal", 1, none⟩]⟩,
    ⟨"Draft", .container [⟨"number", 0, none⟩]⟩]

theorem wellFormed_letter : letterSchema.WellFormed := by decide

theorem shortens_letter : letterSchema.Shortens 3 2 :=
  ⟨_, [], 2, [], 3, .target rfl nofun, rfl, .target rfl nofun, rfl⟩

/-- A draft, the letter with a number in place of its seal, and an overlaid one whose seal was
pruned, have one root to sign. -/
theorem signingRoot_of_container_letter :
    let c : Codec := { catalog := { schema := letterSchema } }
    let r : Root := .zero 32
    let v : Value := .container [.uint 7, .uint 1]
    let w : Value := .overlay r (some (.container [.uint 7, .pruned r]))
    (∃ signed, ((signingRoot 2 v).run c).1 = .ok signed) ∧
      ((signingRoot 2 v).run c).1 = ((root 3 (.container [.uint 7])).run c).1 ∧
      ((signingRoot 2 w).run c).1 = ((signingRoot 2 v).run c).1 := by
  intro c r v w
  obtain ⟨head, a, fields, size, resolved, one⟩ : ∃ head a fields size,
      c.catalog.format (letterSchema.descriptor 2) = .ok (.container head a fields size) ∧
        fields.length = 2 := ⟨_, _, _, _, rfl, rfl⟩
  obtain ⟨g, resolved'⟩ : ∃ g, c.catalog.format (letterSchema.descriptor 3) = .ok g := ⟨_, rfl⟩
  obtain ⟨-, -, draft, blind⟩ :=
    signingRoot_of_container .start wellFormed_letter resolved (v := v) rfl one.symm
  have same := draft c 3 g .start shortens_letter resolved'
  exact ⟨⟨_, same.trans rfl⟩, same, blind c w _ .start rfl rfl rfl⟩

end Codec

end SimpleSerialize
