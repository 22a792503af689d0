/-
The functions that decoded values pass.

The accessor of a node is wrapped in the functions of the subclasses through which its shape travels.
All functions in a format are therefore those of subclasses that its shape reaches, and the
subclasses that a registered model reaches stand under the names of its newtypes.  Main statements:

* `Catalog.allLinks_of_format`: what holds of the functions of the subclasses that a shape reaches
  holds of all functions in its format;
* `Model.mem_newtypes_of_reaches`: what a model reaches as a subclass has the name of a newtype in it;
* `Model.NewtypesKeep.allFunctions`: so it is enough to look at the subclasses of these names.
-/
import SimpleSerialize.Proofs.Declaring
import SimpleSerialize.Proofs.ExactSize

namespace SimpleSerialize

/-! ### Formats -/

namespace Schema

variable {s : Schema} {id other next last : ShapeId} {rebuild : Rebuild}
  {P : Rebuild → Prop}

/-- The functions of all subclasses that a shape reaches satisfy a condition. -/
def AllFunctions (P : Rebuild → Prop) (s : Schema) (id : ShapeId) : Prop :=
  ∀ other next rebuild, s.Reaches id other →
    s.declaration? other = some (.subclass next rebuild) → P rebuild

theorem AllFunctions.of_reaches (each : s.AllFunctions P id) (h : s.Reaches id other) :
    s.AllFunctions P other :=
  fun far next rebuild more => each far next rebuild (h.trans more)

theorem AllFunctions.of_travels {links : List (String × Rebuild)} (each : s.AllFunctions P id)
    (travels : s.TravelsAs id links last) : ∀ link ∈ links, P link.2 := by
  induction travels with
  | target => nofun
  | link declared _ ih =>
    intro link mem
    rcases List.mem_cons.mp mem with rfl | mem
    · exact each _ _ _ (reaches_self _) declared
    · have below := each.of_reaches (.of_reference declared List.mem_cons_self (reaches_self _))
      exact ih below link mem

end Schema

/-- The shape that the handler of a node works on. -/
def Outline.shape : Outline → String
  | basic a => a.shape
  | list a _ _ => a.shape
  | union a _ _ => a.shape
  | container a _ => a.shape

/-- The shape that the handler of a node works on. -/
def Format.shape : Format → String
  | basic _ a => a.shape
  | list _ a _ _ => a.shape
  | union _ a _ _ => a.shape
  | container _ a _ _ => a.shape

/-- The links around the handler of a node. -/
def Outline.links : Outline → List (String × Rebuild)
  | basic a => a.links
  | list a _ _ => a.links
  | union a _ _ => a.links
  | container a _ => a.links

namespace Catalog

open Schema

variable {c : Catalog} {user last : ShapeId} {links : List (String × Rebuild)} {bound : Nat}
  {field hint : Option String} {d : Descriptor} {outline : Outline} {parts : List Format}
  {f : Format} {P : Rebuild → Prop}

theorem handler_of_finish (h : c.finish d outline parts = .ok f) :
    f.shape = outline.shape ∧ f.links = outline.links := by
  rw [finish.eq_def] at h
  split at h
  · cases h
    exact ⟨rfl, rfl⟩
  · obtain ⟨regime, -, h⟩ := bind_eq_ok.mp h
    obtain rfl := eq_of_checkFixedSize h
    exact ⟨rfl, rfl⟩
  · cases h
  · cases h
    exact ⟨rfl, rfl⟩
  · obtain rfl := eq_of_checkFixedSize h
    exact ⟨rfl, rfl⟩

theorem mem_of_finish (h : c.finish d outline parts = .ok f) : ∀ p ∈ f.parts, p ∈ parts := by
  rw [finish.eq_def] at h
  split at h
  · cases h
    nofun
  · obtain ⟨regime, -, h⟩ := bind_eq_ok.mp h
    obtain rfl := eq_of_checkFixedSize h
    exact List.forall_mem_singleton.mpr List.mem_cons_self
  · cases h
  · cases h
    exact fun _ mem => mem
  · obtain rfl := eq_of_checkFixedSize h
    exact fun _ mem => mem

/-- The handler of a node works on the shape that the node's own travels as, with links for the
shapes on the way. -/
theorem handler_of_outline (wf : c.schema.WellFormed)
    (travels : c.schema.TravelsAs user links last)
    (h : c.outline (c.schema.use user field hint) = .ok outline) :
    outline.shape = c.schema.name last ∧ outline.links = links := by
  rw [Catalog.outline, bind_eq_ok] at h
  obtain ⟨access, haccess, h⟩ := h
  obtain ⟨declaration, declared, -⟩ := travels.declared
  simp only [travels.structural_eq wf, shape_use, declared] at h
  have fitted {α β : Type} (a : α) (read : α → Descriptor → β) :
      let handler := (Wrapped.mk a (links.map (·.2))).fit c.schema
        (c.schema.use user field hint) read
      handler.shape = c.schema.name last ∧ handler.links = links := by
    rw [Wrapped.fit, travels.descend_eq]
    exact ⟨congrArg c.schema.name shape_use, rfl⟩
  have found := of_resolve haccess
  simp only [travels.wrappers_eq wf] at found
  -- An accessor of a composite gives an outline for declarations of its own kind only.
  obtain ⟨a, rfl, -⟩ | ⟨a, rfl, -⟩ | ⟨a, rfl, -⟩ | ⟨a, rfl, -⟩ := found
  · cases h
    exact fitted a _
  all_goals
    cases declaration <;> cases h
    exact fitted a _

/-- The same of the format of the node. -/
theorem handler_of_format (wf : c.schema.WellFormed)
    (travels : c.schema.TravelsAs user links last)
    (h : c.formatBelow bound (c.schema.use user field hint) = .ok f) :
    f.shape = c.schema.name last ∧ f.links = links := by
  cases bound with
  | zero => cases h
  | succ bound =>
    obtain ⟨outline, parts, ho, -, h⟩ := formatBelow_succ_eq_ok.mp h
    rw [(handler_of_finish h).1, (handler_of_finish h).2]
    exact handler_of_outline wf travels ho

/-- What holds of the functions of all subclasses that a shape reaches holds of all functions in its
format. -/
theorem allLinks_of_format (wf : c.schema.WellFormed) (each : c.schema.AllFunctions P user)
    (h : c.formatBelow bound (c.schema.use user field hint) = .ok f) : f.AllLinks P := by
  induction bound generalizing user field hint f with
  | zero => cases h
  | succ bound ih =>
    obtain ⟨outline, parts, ho, hp, h⟩ := formatBelow_succ_eq_ok.mp h
    obtain ⟨links, last, travels⟩ := travelsAs_of_outline wf ho
    obtain ⟨declaration, declared, -⟩ := travels.declared
    have fits := fits_of_outline wf travels declared ho
    have resolved : ∀ p ∈ parts, p.AllLinks P := by
      refine forall_right (uses_of_parts ho hp) fun part p ⟨mem, found⟩ => ?_
      -- A part is the format of a shape that the last one refers to.
      have referred : part.shape ∈ declaration.references :=
        fits.shapes_parts ▸ List.mem_map_of_mem mem
      have reaches := travels.reaches.trans (Reaches.of_reference declared referred (reaches_self _))
      exact ih (each.of_reaches reaches) found
    refine .node ?_ fun p mem => resolved p (mem_of_finish h p mem)
    rw [(handler_of_finish h).2, (handler_of_outline wf travels ho).2]
    exact each.of_travels travels

end Catalog

/-! ### Models -/

namespace Model

mutual

/-- The names of the newtypes in a model. -/
def newtypes : Model → List String
  | .list element | .vector element _ | .boundedList element _ => element.newtypes
  | .sizedVector element _ | .sizedList element _ => element.newtypes
  | .option body => body.newtypes
  | .newtype name inner _ => name :: inner.newtypes
  | .record _ fields => fieldNewtypes fields
  | .choice _ _ variants => variantNewtypes variants
  | _ => []

def fieldNewtypes : ModelFields → List String
  | .nil => []
  | .cons _ model _ rest => model.newtypes ++ fieldNewtypes rest

def variantNewtypes : ModelVariants → List String
  | .nil => []
  | .cons model rest => model.newtypes ++ variantNewtypes rest

end

variable {s : Schema} {id other : ShapeId} {d : Declaration}

/-- A subclass that is reached from another kind of shape is reached from a part of it. -/
theorem reaches_part (declared : s.declaration? id = some d)
    (plain : ∀ next rebuild, d ≠ .subclass next rebuild) (h : s.Reaches id other)
    {next : ShapeId} {rebuild : Rebuild}
    (sub : s.declaration? other = some (.subclass next rebuild)) :
    ∃ r ∈ d.references, s.Reaches r other := by
  rcases (Schema.reaches_iff declared).mp h with rfl | below
  · exact absurd (Option.some.inj (declared.symm.trans sub)) (plain next rebuild)
  · exact below

section Reached

variable {next : ShapeId} {rebuild : Rebuild}

mutual

/-- What a model reaches as a subclass has the name of a newtype in it. -/
theorem mem_newtypes_of_reaches (sub : s.declaration? other = some (.subclass next rebuild)) :
    ∀ (m : Model) {id : ShapeId}, m.DeclaredIn s id → s.Reaches id other → s.name other ∈ m.newtypes
  | .bool, _, row, h | .uint _, _, row, h | .uint256, _, row, h | .bytes _, _, row, h => by
    obtain ⟨r, mem, -⟩ := reaches_part (Schema.Row.declaration_eq row nofun) nofun h sub
    cases mem
  | .list element, _, ⟨e, inside, row⟩, h | .option element, _, ⟨e, inside, row⟩, h
  | .vector element _, _, ⟨e, inside, row⟩, h | .boundedList element _, _, ⟨e, inside, row⟩, h
  | .sizedVector element _, _, ⟨e, inside, row⟩, h
  | .sizedList element _, _, ⟨e, inside, row⟩, h => by
    obtain ⟨r, mem, below⟩ := reaches_part (row.declaration_eq nofun) nofun h sub
    obtain rfl := List.mem_singleton.mp mem
    exact mem_newtypes_of_reaches sub element inside below
  | .newtype name inner _, _, ⟨e, inside, row⟩, h => by
    obtain ⟨rebuild, declared⟩ := row.subclass_eq
    rcases (Schema.reaches_iff declared).mp h with rfl | ⟨r, mem, below⟩
    · exact List.mem_cons.mpr (.inl row.name_eq)
    · obtain rfl := List.mem_singleton.mp mem
      exact List.mem_cons_of_mem _ (mem_newtypes_of_reaches sub inner inside below)
  | .record _ fields, _, ⟨fs, inside, row⟩, h => by
    obtain ⟨r, mem, below⟩ := reaches_part (row.declaration_eq nofun) nofun h sub
    exact mem_fieldNewtypes_of_reaches sub fields inside mem below
  | .choice _ _ variants, _, ⟨ids, inside, row⟩, h => by
    obtain ⟨r, mem, below⟩ := reaches_part (row.declaration_eq nofun) nofun h sub
    exact mem_variantNewtypes_of_reaches sub variants inside mem below

theorem mem_fieldNewtypes_of_reaches
    (sub : s.declaration? other = some (.subclass next rebuild)) :
    ∀ (fields : ModelFields) {fs : List Field} {r : ShapeId}, FieldsDeclaredIn fields s fs →
      r ∈ fs.map (·.shape) → s.Reaches r other → s.name other ∈ fieldNewtypes fields
  | .nil, _, _, rfl, mem, _ => nomatch mem
  | .cons _ model _ rest, _, _, ⟨id, others, inside, remaining, rfl⟩, mem, h => by
    rcases List.mem_cons.mp mem with rfl | mem
    · exact List.mem_append_left _ (mem_newtypes_of_reaches sub model inside h)
    · exact List.mem_append_right _ (mem_fieldNewtypes_of_reaches sub rest remaining mem h)

theorem mem_variantNewtypes_of_reaches
    (sub : s.declaration? other = some (.subclass next rebuild)) :
    ∀ (variants : ModelVariants) {ids : List ShapeId} {r : ShapeId},
      VariantsDeclaredIn variants s ids → r ∈ ids → s.Reaches r other →
      s.name other ∈ variantNewtypes variants
  | .nil, _, _, rfl, mem, _ => nomatch mem
  | .cons model rest, _, _, ⟨id, others, inside, remaining, rfl⟩, mem, h => by
    rcases List.mem_cons.mp mem with rfl | mem
    · exact List.mem_append_left _ (mem_newtypes_of_reaches sub model inside h)
    · exact List.mem_append_right _ (mem_variantNewtypes_of_reaches sub rest remaining mem h)

end

end Reached

/-- The functions of the subclasses that stand under the names of newtypes in the model satisfy a
condition. -/
def NewtypesKeep (P : Rebuild → Prop) (s : Schema) (m : Model) : Prop :=
  ∀ id next rebuild, s.name id ∈ m.newtypes →
    s.declaration? id = some (.subclass next rebuild) → P rebuild

theorem NewtypesKeep.allFunctions {P : Rebuild → Prop} {m : Model} (keep : m.NewtypesKeep P s)
    (declared : m.DeclaredIn s id) : s.AllFunctions P id :=
  fun other next rebuild reaches sub =>
    keep other next rebuild (mem_newtypes_of_reaches sub m declared reaches) sub

end Model

end SimpleSerialize
