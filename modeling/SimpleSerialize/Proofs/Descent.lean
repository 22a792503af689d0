/-
Resolution goes down the table.

Every declaration of a well formed table refers to earlier places.  So each shape travels as some
shape that is not a subclass, the parts of a node stand before the shape that the node was made for,
and a bound on places that is above a shape leaves room for all that resolution can come to.  Main
statements:

* `Schema.exists_travelsAs`: every shape of a table travels as one that gives the structure;
* `Catalog.shape_lt_of_part`: the parts of a node stand before its shape, whatever the accessors;
* `Catalog.formatBelow_eq_format`: any bound above a shape gives what the size of the table gives;
* `Catalog.fits_of_outline`: with stock accessors, the outline of a shape is that of the declaration
  that it travels as.
-/
import SimpleSerialize.Proofs.Subclass

namespace SimpleSerialize

/-- How the bytes of a basic shape are read and written. -/
def BasicKind.form : BasicKind → BasicForm
  | bool => .bool
  | uint width => .uint width.toNat
  | bytes length => .bytes length.toNat

namespace Schema

variable {s : Schema} {id : ShapeId}

theorem WellFormed.lt_of_declared (wf : s.WellFormed) {d : Declaration}
    (declared : s.declaration? id = some d) : ∀ r ∈ d.references, r < id := by
  obtain ⟨e, here, rfl⟩ := Option.map_eq_some_iff.mp declared
  exact wf.references_lt id e here

theorem exists_declaration (known : id < s.size) : ∃ d, s.declaration? id = some d :=
  ⟨_, congrArg (Option.map _) (List.getElem?_eq_getElem known)⟩

theorem declaration?_eq_none (unknown : ¬id < s.size) : s.declaration? id = none :=
  congrArg (Option.map _) (List.getElem?_eq_none (Nat.le_of_not_lt unknown))

/-- Every shape of a table travels as one that gives the structure, at its place or before it. -/
theorem exists_travelsAs (wf : s.WellFormed) (known : id < s.size) :
    ∃ links last, s.TravelsAs id links last ∧ last ≤ id := by
  induction id using Nat.strongRecOn with
  | ind id ih =>
    obtain ⟨d, declared⟩ := exists_declaration known
    cases d with
    | subclass next rebuild =>
      have earlier : next < id := wf.lt_of_declared declared next List.mem_cons_self
      obtain ⟨links, last, travels, le⟩ := ih next earlier (Nat.lt_trans earlier known)
      exact ⟨_, last, .link declared travels, Nat.le_trans le (Nat.le_of_lt earlier)⟩
    | _ => exact ⟨[], id, .target declared nofun, Nat.le_refl id⟩

end Schema

namespace Catalog

open Schema

/-! ### Any accessors -/

section

variable {B φ L U C : Type} {c : Catalog B L U C} {d : Descriptor}

/-- A use of a shape as the table describes it is told by its shape, its field and its hint. -/
theorem plain_iff : c.Plain d ↔ c.schema.use d.shape d.field d.hint = d := Iff.rfl

theorem plain_use (id : ShapeId) (field hint : Option String) :
    c.Plain (c.schema.use id field hint) := by
  rw [plain_iff, shape_use]
  rfl

/-- A shape that is not in the table has no target. -/
theorem structural_of_unknown (plain : c.Plain d)
    (unknown : c.schema.declaration? d.shape = none) : c.schema.structural d = d := by
  have alone : c.schema.substituted? d = none := by
    rw [← plain_iff.mp plain]
    simp only [substituted?, use, descriptor, unknown, Option.map_none]
  rw [structural, chain]
  cases d.shape with
  | zero => rfl
  | succ n => rw [chainOf, alone]; rfl

/-- What gives a use of a shape its structure stands at the place of the shape or before it. -/
theorem structural_le (wf : c.schema.WellFormed) (plain : c.Plain d) :
    (c.schema.structural d).shape ≤ d.shape := by
  by_cases known : d.shape < c.schema.size
  · obtain ⟨links, last, travels, le⟩ := exists_travelsAs wf known
    rwa [← plain_iff.mp plain, travels.structural_eq wf, shape_use, shape_use]
  · exact Nat.le_of_eq (congrArg _ (structural_of_unknown plain (declaration?_eq_none known)))

variable [Accessor B] [Formed B φ] [Accessor L] [Accessor U] [Accessor C]
  {outline : Outline φ L U C}

/-- The parts of a node are shapes that the declaration at the end of the chain refers to. -/
theorem exists_reference_of_part (h : c.outline d = .ok outline) : ∀ part ∈ outline.parts,
    ∃ declaration, c.schema.declaration? (c.schema.structural d).shape = some declaration ∧
      part.shape ∈ declaration.references := by
  rw [Catalog.outline, bind_eq_ok] at h
  obtain ⟨access, -, h⟩ := h
  intro part mem
  split at h
  case h_1 =>
    cases h
    cases mem
  case h_2 declared =>
    cases h
    obtain rfl := List.mem_singleton.mp mem
    exact ⟨_, declared, List.mem_singleton.mpr (shape_descriptor _ _)⟩
  case h_3 declared =>
    cases h
    obtain ⟨id, inside, rfl⟩ := List.mem_map.mp mem
    exact ⟨_, declared, (shape_descriptor c.schema id).symm ▸ inside⟩
  case h_4 declared =>
    cases h
    obtain ⟨field, inside, rfl⟩ := List.mem_map.mp mem
    exact ⟨_, declared, List.mem_map.mpr ⟨field, inside, (shape_descriptor _ _).symm⟩⟩
  case h_5 => cases h

/-- A shape that is not in the table has no parts. -/
theorem parts_eq_nil (plain : c.Plain d) (unknown : c.schema.declaration? d.shape = none)
    (h : c.outline d = .ok outline) : outline.parts = [] := by
  refine List.eq_nil_iff_forall_not_mem.mpr fun part mem => ?_
  obtain ⟨declaration, declared, -⟩ := exists_reference_of_part h part mem
  rw [structural_of_unknown plain unknown, unknown] at declared
  cases declared

/-- The parts of a node stand before its shape. -/
theorem shape_lt_of_part (wf : c.schema.WellFormed) (plain : c.Plain d)
    (h : c.outline d = .ok outline) : ∀ part ∈ outline.parts, part.shape < d.shape := by
  intro part mem
  obtain ⟨declaration, declared, inside⟩ := exists_reference_of_part h part mem
  exact Nat.lt_of_lt_of_le (wf.lt_of_declared declared _ inside) (structural_le wf plain)

variable [Sized φ] {bound : Nat}

/-- A node, from its outline and its parts. -/
theorem formatBelow_succ (h : c.outline d = .ok outline) :
    c.formatBelow (bound + 1) d =
      outline.parts.mapM (c.formatBelow bound) >>= fun parts => c.finish d outline parts := by
  rw [formatBelow, h]
  rfl

/-- Any two bounds above a shape leave room for the same. -/
theorem formatBelow_eq (wf : c.schema.WellFormed) (plain : c.Plain d) {other : Nat}
    (room : d.shape < bound) (room' : d.shape < other) :
    c.formatBelow bound d = c.formatBelow other d := by
  induction bound generalizing d other with
  | zero => exact absurd room (Nat.not_lt_zero _)
  | succ bound ih =>
    obtain ⟨other, rfl⟩ := Nat.exists_eq_add_one_of_ne_zero (Nat.ne_zero_of_lt room')
    cases ho : c.outline d with
    | error e => rw [formatBelow, formatBelow, ho]; rfl
    | ok outline =>
      -- Each part stands before the shape, so that both bounds, less one, are still above it.
      have parts : outline.parts.mapM (c.formatBelow bound) =
          outline.parts.mapM (c.formatBelow other) := by
        refine mapM_congr fun part mem => ?_
        have before := shape_lt_of_part wf plain ho part mem
        exact ih (plain_of_outline ho part mem) (Nat.lt_of_lt_of_le before (Nat.le_of_lt_succ room))
          (Nat.lt_of_lt_of_le before (Nat.le_of_lt_succ room'))
      rw [formatBelow_succ ho, formatBelow_succ ho, parts]

/-- Any bound above a shape gives what the size of the table gives. -/
theorem formatBelow_eq_format (wf : c.schema.WellFormed) (plain : c.Plain d)
    (known : d.shape < c.schema.size) (room : d.shape < bound) :
    c.formatBelow bound d = c.format d :=
  formatBelow_eq wf plain room known

/-- A use of a shape resolves if its parts do and can be put together. -/
theorem format_eq (wf : c.schema.WellFormed) (plain : c.Plain d) (nonempty : 0 < c.schema.size)
    (h : c.outline d = .ok outline) :
    c.format d = outline.parts.mapM c.format >>= fun parts => c.finish d outline parts := by
  by_cases known : d.shape < c.schema.size
  · rw [← formatBelow_eq_format wf plain known (Nat.lt_succ_of_lt known), formatBelow_succ h]
    rfl
  · obtain ⟨bound, size⟩ := Nat.exists_eq_add_one_of_ne_zero (Nat.ne_zero_of_lt nonempty)
    rw [format, size, formatBelow_succ h, parts_eq_nil plain (declaration?_eq_none known) h]
    rfl

end

/-! ### Stock accessors -/

variable {c : Catalog} {d : Descriptor} {outline : Outline} {bound : Nat} {id last : ShapeId}
  {links : List (String × Rebuild)} {field hint : Option String}

/-- There is no accessor for a shape that is not in the table. -/
theorem lt_size_of_outline (plain : c.Plain d) (h : c.outline d = .ok outline) :
    d.shape < c.schema.size := by
  by_contra outside
  have undeclared := declaration?_eq_none outside
  have last := structural_of_unknown plain undeclared
  rw [Catalog.outline, bind_eq_ok] at h
  obtain ⟨access, found, -⟩ := h
  have supported := of_resolve found
  simp only [last, ShapeAccessor.supports, undeclared] at supported
  simp at supported

/-- A use of a shape that has an outline travels as a shape that gives the structure. -/
theorem travelsAs_of_outline (wf : c.schema.WellFormed)
    (h : c.outline (c.schema.use id field hint) = .ok outline) :
    ∃ links last, c.schema.TravelsAs id links last := by
  have known := lt_size_of_outline (plain_use id field hint) h
  rw [shape_use] at known
  obtain ⟨links, last, travels, -⟩ := exists_travelsAs wf known
  exact ⟨links, last, travels⟩

/-- The formats of the parts of a node are those of uses of shapes. -/
theorem uses_of_parts {parts : List Format} (h : c.outline d = .ok outline)
    (found : List.Forall₂ (fun part p => c.formatBelow bound part = .ok p) outline.parts parts) :
    List.Forall₂ (fun part p => part ∈ outline.parts ∧
      c.formatBelow bound (c.schema.use part.shape part.field part.hint) = .ok p)
      outline.parts parts := by
  have inside := (List.forall₂_and_left _ _).mpr ⟨fun _ mem => mem, found⟩
  refine inside.imp fun part p ⟨mem, found⟩ => ⟨mem, ?_⟩
  rwa [plain_iff.mp (plain_of_outline h part mem)]

/-- An outline is that of a declaration. -/
inductive Fits (c : Catalog) : Declaration → Outline → Prop
  | basic {kind : BasicKind} {a : Handler BasicForm} : a.base = kind.form →
    Fits c (.basic kind) (.basic a)
  | sequence (element : ShapeId) (size : SizeRule) (a : Handler ListAccessor) :
    Fits c (.sequence element size) (.list a size (c.schema.descriptor element))
  | union (variants : List ShapeId) (nullable : Bool) (a : Handler UnionAccessor) :
    Fits c (.union variants nullable) (.union a nullable (variants.map c.schema.descriptor))
  | container (fields : List Field) (a : Handler ContainerAccessor) :
    Fits c (.container fields) (.container a (fields.map c.fieldDescriptor))

/-- The outline of a shape is that of the declaration that it travels as. -/
theorem fits_of_outline (wf : c.schema.WellFormed) (travels : c.schema.TravelsAs id links last)
    {declaration : Declaration} (declared : c.schema.declaration? last = some declaration)
    (h : c.outline (c.schema.use id field hint) = .ok outline) : c.Fits declaration outline := by
  rw [Catalog.outline, bind_eq_ok] at h
  obtain ⟨access, haccess, h⟩ := h
  have found := of_resolve haccess
  simp only [travels.structural_eq wf, travels.wrappers_eq wf, shape_use] at found
  simp only [travels.structural_eq wf, shape_use, declared] at h
  obtain ⟨a, rfl, supported⟩ | ⟨a, rfl, -⟩ | ⟨a, rfl, -⟩ | ⟨a, rfl, -⟩ := found
  · cases h
    -- The accessor reads its form off the declaration that it supports.
    have base : ((⟨a, links.map (·.2)⟩ : Wrapped BasicAccessor).basicAt c.schema
        (c.schema.use id field hint)).base = a.form c.schema last := by
      simp only [Wrapped.basicAt, Wrapped.fit, travels.descend_eq, BasicAccessor.formed_eq,
        shape_use]
    simp only [ShapeAccessor.supports, declared] at supported
    cases declaration with
    | basic kind =>
      refine .basic (base.trans ?_)
      simp only [BasicAccessor.form, declared]
      cases a <;> cases kind <;> first | rfl | cases supported
    | _ => cases a <;> cases supported
  · cases declaration with
    | sequence element size =>
      cases h
      have rule : (c.schema.use last field hint).size = size := by
        rw [use, Schema.descriptor, declared]
      rw [rule]
      exact .sequence element size _
    | _ => cases h
  · cases declaration with
    | union variants nullable =>
      cases h
      exact .union variants nullable _
    | _ => cases h
  · cases declaration with
    | container fields =>
      cases h
      exact .container fields _
    | _ => cases h

/-- The parts of a node are the shapes that its declaration refers to. -/
theorem Fits.shapes_parts {declaration : Declaration} (fits : c.Fits declaration outline) :
    outline.parts.map (·.shape) = declaration.references := by
  cases fits with
  | basic => rfl
  | sequence element size a => exact congrArg (fun r => [r]) (shape_descriptor c.schema element)
  | union variants nullable a =>
    refine List.map_map.trans ((List.map_congr_left fun r _ => ?_).trans (List.map_id _))
    exact shape_descriptor c.schema r
  | container fields a =>
    refine List.map_map.trans (List.map_congr_left fun field _ => ?_)
    exact shape_descriptor c.schema field.shape

end Catalog

end SimpleSerialize
