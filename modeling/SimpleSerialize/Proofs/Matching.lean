/-
Models and the formats of their shapes.

A registered model has a shape of its structure in the table, and so have the models that it is built
from.  Whatever that shape resolves to has the structure of the model: the same kinds of nodes in the
same places, with the lengths that the model gives them.  Main statements:

* `Catalog.basic_of_format`, `list_of_format`, `union_of_format`, `container_of_format`: the format of
  a shape, by the declaration that it travels as;
* `Model.matches_of_format`: the format of the shape of a model matches the model.
-/
import SimpleSerialize.Proofs.Declaring
import SimpleSerialize.Proofs.Descent

namespace SimpleSerialize

/-! ### Formats by declaration -/

namespace Schema

variable {s : Schema} {user id next : ShapeId} {d : Declaration}

/-- Two shapes travel as the same. -/
def SameTarget (s : Schema) (user id : ShapeId) : Prop :=
  ∃ links links' last, s.TravelsAs user links last ∧ s.TravelsAs id links' last

theorem sameTarget_self (wf : s.WellFormed) (known : id < s.size) : s.SameTarget id id := by
  obtain ⟨links, last, travels, -⟩ := exists_travelsAs wf known
  exact ⟨links, links, last, travels, travels⟩

/-- A shape that is not a subclass is what others travel as. -/
theorem SameTarget.travels (same : s.SameTarget user id) (declared : s.declaration? id = some d)
    (plain : ∀ next rebuild, d ≠ .subclass next rebuild) : ∃ links, s.TravelsAs user links id := by
  obtain ⟨links, links', last, travels, travels'⟩ := same
  cases travels' with
  | target => exact ⟨links, travels⟩
  | link declared' =>
    cases declared.symm.trans declared'
    exact absurd rfl (plain _ _)

/-- A subclass travels as its target does. -/
theorem SameTarget.subclass (same : s.SameTarget user id) {rebuild : Rebuild}
    (declared : s.declaration? id = some (.subclass next rebuild)) : s.SameTarget user next := by
  obtain ⟨links, links', last, travels, travels'⟩ := same
  cases travels' with
  | target declared' plain =>
    cases declared.symm.trans declared'
    exact absurd rfl (plain _ _)
  | link declared' travels' =>
    cases declared.symm.trans declared'
    exact ⟨links, _, last, travels, travels'⟩

end Schema

namespace Catalog

open Schema

variable {c : Catalog} {user last : ShapeId} {links : List (String × Rebuild)} {bound : Nat}
  {field hint : Option String} {f : Format}

/-- A vector has as many elements as its length says, which is not zero. -/
theorem vector_of_regime {shape : String} {length : Extent} {regime : Regime}
    (h : c.regime shape (.vector length) = .ok regime) :
    ∃ n, c.extent shape length = .ok n ∧ regime = .vector n := by
  simp only [Catalog.regime, bind_eq_ok] at h
  obtain ⟨n, known, h⟩ := h
  refine ⟨n, known, ?_⟩
  split at h <;> cases h
  rfl

theorem node_of_format (wf : c.schema.WellFormed) (travels : c.schema.TravelsAs user links last)
    {d : Declaration} (declared : c.schema.declaration? last = some d)
    (h : c.formatBelow bound (c.schema.use user field hint) = .ok f) :
    ∃ below outline parts, c.Fits d outline ∧
      List.Forall₂ (fun part p => c.formatBelow below part = .ok p) outline.parts parts ∧
      c.finish (c.schema.use user field hint) outline parts = .ok f := by
  cases bound with
  | zero => cases h
  | succ below =>
    obtain ⟨outline, parts, ho, hp, h⟩ := formatBelow_succ_eq_ok.mp h
    exact ⟨below, outline, parts, fits_of_outline wf travels declared ho, hp, h⟩

theorem basic_of_format (wf : c.schema.WellFormed) (travels : c.schema.TravelsAs user links last)
    {kind : BasicKind} (declared : c.schema.declaration? last = some (.basic kind))
    (h : c.formatBelow bound (c.schema.use user field hint) = .ok f) :
    ∃ head a, f = .basic head a ∧ a.base = kind.form := by
  obtain ⟨below, outline, parts, fits, hp, h⟩ := node_of_format wf travels declared h
  cases fits with
  | basic form =>
    cases h
    exact ⟨_, _, rfl, form⟩

theorem list_of_format (wf : c.schema.WellFormed) (travels : c.schema.TravelsAs user links last)
    {element : ShapeId} {size : SizeRule}
    (declared : c.schema.declaration? last = some (.sequence element size))
    (h : c.formatBelow bound (c.schema.use user field hint) = .ok f) :
    ∃ below name head a regime g, f = .list head a regime g ∧ c.regime name size = .ok regime ∧
      c.formatBelow below (c.schema.use element none none) = .ok g := by
  obtain ⟨below, outline, parts, fits, hp, h⟩ := node_of_format wf travels declared h
  cases fits with
  | sequence element size a =>
    cases hp with
    | cons first _ =>
      simp only [finish, bind_eq_ok] at h
      obtain ⟨regime, hregime, h⟩ := h
      obtain rfl := eq_of_checkFixedSize h
      rw [use_none]
      exact ⟨below, _, _, a, regime, _, rfl, hregime, first⟩

theorem union_of_format (wf : c.schema.WellFormed) (travels : c.schema.TravelsAs user links last)
    {variants : List ShapeId} {nullable : Bool}
    (declared : c.schema.declaration? last = some (.union variants nullable))
    (h : c.formatBelow bound (c.schema.use user field hint) = .ok f) :
    ∃ below head a gs, f = .union head a nullable gs ∧ List.Forall₂ (fun id g =>
      c.formatBelow below (c.schema.use id none none) = .ok g) variants gs := by
  obtain ⟨below, outline, parts, fits, hp, h⟩ := node_of_format wf travels declared h
  cases fits with
  | union variants nullable a =>
    cases h
    simp only [use_none]
    exact ⟨below, _, a, parts, rfl, List.forall₂_map_left_iff.mp hp⟩

theorem container_of_format (wf : c.schema.WellFormed)
    (travels : c.schema.TravelsAs user links last) {fields : List Field}
    (declared : c.schema.declaration? last = some (.container fields))
    (h : c.formatBelow bound (c.schema.use user field hint) = .ok f) :
    ∃ below head a gs size, f = .container head a gs size ∧ List.Forall₂ (fun x g =>
      c.formatBelow below (c.schema.use x.shape (some x.name) x.hint) = .ok g) fields gs := by
  obtain ⟨below, outline, parts, fits, hp, h⟩ := node_of_format wf travels declared h
  cases fits with
  | container fields a =>
    obtain rfl := eq_of_checkFixedSize h
    exact ⟨below, _, a, parts, _, rfl, List.forall₂_map_left_iff.mp hp⟩

end Catalog

/-! ### Models -/

namespace Model

mutual

/-- A format has the structure of a model. -/
inductive Matches : Model → Format → Prop
  | bool {head : Heading} {a : Handler BasicForm} : a.base = .bool → Matches .bool (.basic head a)
  | uint {size : WordSize} {head : Heading} {a : Handler BasicForm} : a.base = .uint size.bytes →
    Matches (.uint size) (.basic head a)
  | uint256 {head : Heading} {a : Handler BasicForm} : a.base = .uint 32 →
    Matches .uint256 (.basic head a)
  | bytes {length : UInt32} {head : Heading} {a : Handler BasicForm} :
    a.base = .bytes length.toNat → Matches (.bytes length) (.basic head a)
  | list {element : Model} {g : Format} (head : Heading) (a : Handler ListAccessor) :
    element.Matches g → Matches (.list element) (.list head a (.list none) g)
  | option {body : Model} {g : Format} (head : Heading) (a : Handler UnionAccessor) :
    body.Matches g → Matches (.option body) (.union head a true [g])
  | vector {element : Model} {g : Format} (head : Heading) (a : Handler ListAccessor)
    (length : UInt64) : element.Matches g →
    Matches (.vector element length) (.list head a (.vector length) g)
  | boundedList {element : Model} {g : Format} (head : Heading) (a : Handler ListAccessor)
    (limit : UInt64) : element.Matches g →
    Matches (.boundedList element limit) (.list head a (.list (some limit)) g)
  | sizedVector {element : Model} {length : String} {g : Format} (head : Heading)
    (a : Handler ListAccessor) (regime : Regime) : element.Matches g →
    Matches (.sizedVector element length) (.list head a regime g)
  | sizedList {element : Model} {limit : String} {g : Format} (head : Heading)
    (a : Handler ListAccessor) (regime : Regime) : element.Matches g →
    Matches (.sizedList element limit) (.list head a regime g)
  | newtype {name : String} {inner : Model} {check : Rebuild} {f : Format} : inner.Matches f →
    Matches (.newtype name inner check) f
  | record {name : String} {fields : ModelFields} {gs : List Format} (head : Heading)
    (a : Handler ContainerAccessor) (size : Option Nat) : FieldsMatch fields gs →
    Matches (.record name fields) (.container head a gs size)
  | choice {name : String} {nullable : Bool} {variants : ModelVariants} {gs : List Format}
    (head : Heading) (a : Handler UnionAccessor) : VariantsMatch variants gs →
    Matches (.choice name nullable variants) (.union head a nullable gs)

/-- Formats have the structures of the fields of a record. -/
inductive FieldsMatch : ModelFields → List Format → Prop
  | nil : FieldsMatch .nil []
  | cons {name : String} {model : Model} {hint : Option String} {rest : ModelFields} {g : Format}
    {gs : List Format} : model.Matches g → FieldsMatch rest gs →
    FieldsMatch (.cons name model hint rest) (g :: gs)

/-- Formats have the structures of the variants of a choice. -/
inductive VariantsMatch : ModelVariants → List Format → Prop
  | nil : VariantsMatch .nil []
  | cons {model : Model} {rest : ModelVariants} {g : Format} {gs : List Format} :
    model.Matches g → VariantsMatch rest gs → VariantsMatch (.cons model rest) (g :: gs)

end

variable {c : Catalog} {id user : ShapeId} {field hint : Option String} {bound : Nat} {f : Format}

/-- A model that is declared at a place of a table is known by its name there. -/
theorem DeclaredIn.row {s : Schema} {m : Model} (declared : m.DeclaredIn s id) :
    ∃ d, s.Row id m.shapeName d := by
  cases m with
  | bool => exact ⟨_, declared⟩
  | uint size => exact ⟨_, declared⟩
  | uint256 => exact ⟨_, declared⟩
  | bytes length => exact ⟨_, declared⟩
  | _ =>
    obtain ⟨_, -, row⟩ := declared
    exact ⟨_, row⟩

theorem DeclaredIn.sameTarget {m : Model} (wf : c.schema.WellFormed)
    (declared : m.DeclaredIn c.schema id) : c.schema.SameTarget id id := by
  obtain ⟨d, row⟩ := declared.row
  exact Schema.sameTarget_self wf row.lt_size

/-- A row of a basic shape gives the format its form. -/
theorem basic_of_row (wf : c.schema.WellFormed) {name : String} {kind : BasicKind}
    (row : c.schema.Row id name (.basic kind)) (same : c.schema.SameTarget user id)
    (h : c.formatBelow bound (c.schema.use user field hint) = .ok f) :
    ∃ head a, f = .basic head a ∧ a.base = kind.form := by
  have declared := row.declaration_eq nofun
  obtain ⟨links, travels⟩ := same.travels declared nofun
  exact Catalog.basic_of_format wf travels declared h

/-- A row of a sequence gives the format its regime and its elements. -/
theorem list_of_row (wf : c.schema.WellFormed) {name : String} {element : ShapeId} {size : SizeRule}
    (row : c.schema.Row id name (.sequence element size)) (same : c.schema.SameTarget user id)
    (h : c.formatBelow bound (c.schema.use user field hint) = .ok f) :
    ∃ below name head a regime g, f = .list head a regime g ∧ c.regime name size = .ok regime ∧
      c.formatBelow below (c.schema.use element none none) = .ok g := by
  have declared := row.declaration_eq nofun
  obtain ⟨links, travels⟩ := same.travels declared nofun
  exact Catalog.list_of_format wf travels declared h

theorem union_of_row (wf : c.schema.WellFormed) {name : String} {variants : List ShapeId}
    {nullable : Bool} (row : c.schema.Row id name (.union variants nullable))
    (same : c.schema.SameTarget user id)
    (h : c.formatBelow bound (c.schema.use user field hint) = .ok f) :
    ∃ below head a gs, f = .union head a nullable gs ∧ List.Forall₂ (fun id g =>
      c.formatBelow below (c.schema.use id none none) = .ok g) variants gs := by
  have declared := row.declaration_eq nofun
  obtain ⟨links, travels⟩ := same.travels declared nofun
  exact Catalog.union_of_format wf travels declared h

mutual

/-- The format of a shape that travels as the shape of a model matches the model. -/
theorem matches_of_format (wf : c.schema.WellFormed) :
    ∀ (m : Model) {id user : ShapeId} {field hint : Option String} {bound : Nat} {f : Format},
      m.DeclaredIn c.schema id → c.schema.SameTarget user id →
      c.formatBelow bound (c.schema.use user field hint) = .ok f → m.Matches f
  | .bool, _, _, _, _, _, _, row, same, h => by
    obtain ⟨head, a, rfl, form⟩ := basic_of_row wf row same h
    exact .bool form
  | .uint size, _, _, _, _, _, _, row, same, h => by
    obtain ⟨head, a, rfl, form⟩ := basic_of_row wf row same h
    refine .uint (form.trans ?_)
    cases size <;> rfl
  | .uint256, _, _, _, _, _, _, row, same, h => by
    obtain ⟨head, a, rfl, form⟩ := basic_of_row wf row same h
    exact .uint256 form
  | .bytes length, _, _, _, _, _, _, row, same, h => by
    obtain ⟨head, a, rfl, form⟩ := basic_of_row wf row same h
    exact .bytes form
  | .list element, _, _, _, _, _, _, ⟨e, inside, row⟩, same, h => by
    obtain ⟨below, name, head, a, regime, g, rfl, hregime, found⟩ := list_of_row wf row same h
    cases hregime
    exact .list head a (matches_of_format wf element inside (inside.sameTarget wf) found)
  | .option body, _, _, _, _, _, _, ⟨e, inside, row⟩, same, h => by
    obtain ⟨below, head, a, gs, rfl, each⟩ := union_of_row wf row same h
    cases each with
    | cons found rest =>
      cases rest
      exact .option head a (matches_of_format wf body inside (inside.sameTarget wf) found)
  | .vector element length, _, _, _, _, _, _, ⟨e, inside, row⟩, same, h => by
    obtain ⟨below, name, head, a, regime, g, rfl, hregime, found⟩ := list_of_row wf row same h
    obtain ⟨_, same, rfl⟩ := Catalog.vector_of_regime hregime
    cases same
    exact .vector head a length (matches_of_format wf element inside (inside.sameTarget wf) found)
  | .boundedList element limit, _, _, _, _, _, _, ⟨e, inside, row⟩, same, h => by
    obtain ⟨below, name, head, a, regime, g, rfl, hregime, found⟩ := list_of_row wf row same h
    cases hregime
    exact .boundedList head a limit
      (matches_of_format wf element inside (inside.sameTarget wf) found)
  | .sizedVector element length, _, _, _, _, _, _, ⟨e, inside, row⟩, same, h => by
    obtain ⟨below, name, head, a, regime, g, rfl, -, found⟩ := list_of_row wf row same h
    exact .sizedVector head a regime
      (matches_of_format wf element inside (inside.sameTarget wf) found)
  | .sizedList element limit, _, _, _, _, _, _, ⟨e, inside, row⟩, same, h => by
    obtain ⟨below, name, head, a, regime, g, rfl, -, found⟩ := list_of_row wf row same h
    exact .sizedList head a regime
      (matches_of_format wf element inside (inside.sameTarget wf) found)
  | .newtype name inner check, _, _, _, _, _, _, ⟨e, inside, row⟩, same, h => by
    -- The same shape travels as what the newtype wraps, so that the format is also that of the inside.
    obtain ⟨rebuild, declared⟩ := row.subclass_eq
    exact .newtype (matches_of_format wf inner inside (same.subclass declared) h)
  | .record name fields, _, _, _, _, _, _, ⟨fs, inside, row⟩, same, h => by
    have declared := row.declaration_eq nofun
    obtain ⟨links, travels⟩ := same.travels declared nofun
    obtain ⟨below, head, a, gs, size, rfl, each⟩ :=
      Catalog.container_of_format wf travels declared h
    exact .record head a size (fieldsMatch_of_formats wf fields inside each)
  | .choice name nullable variants, _, _, _, _, _, _, ⟨ids, inside, row⟩, same, h => by
    obtain ⟨below, head, a, gs, rfl, each⟩ := union_of_row wf row same h
    exact .choice head a (variantsMatch_of_formats wf variants inside each)

theorem fieldsMatch_of_formats (wf : c.schema.WellFormed) :
    ∀ (fields : ModelFields) {fs : List Field} {bound : Nat} {gs : List Format},
      FieldsDeclaredIn fields c.schema fs → List.Forall₂ (fun x g =>
        c.formatBelow bound (c.schema.use x.shape (some x.name) x.hint) = .ok g) fs gs →
      FieldsMatch fields gs
  | .nil, _, _, _, rfl, each => by
    cases each
    exact .nil
  | .cons name model hint rest, _, _, _, ⟨id, others, inside, remaining, rfl⟩, each => by
    cases each with
    | cons found each =>
      exact .cons (matches_of_format wf model inside (inside.sameTarget wf) found)
        (fieldsMatch_of_formats wf rest remaining each)

theorem variantsMatch_of_formats (wf : c.schema.WellFormed) :
    ∀ (variants : ModelVariants) {ids : List ShapeId} {bound : Nat} {gs : List Format},
      VariantsDeclaredIn variants c.schema ids → List.Forall₂ (fun id g =>
        c.formatBelow bound (c.schema.use id none none) = .ok g) ids gs →
      VariantsMatch variants gs
  | .nil, _, _, _, rfl, each => by
    cases each
    exact .nil
  | .cons model rest, _, _, _, ⟨id, others, inside, remaining, rfl⟩, each => by
    cases each with
    | cons found each =>
      exact .cons (matches_of_format wf model inside (inside.sameTarget wf) found)
        (variantsMatch_of_formats wf rest remaining each)

end

end Model

end SimpleSerialize
