/-
Declaring shapes, one call after the other.

A builder only ever grows: rows are put at the end of the table, and an inconsistency stays noted.
A shape that was given out therefore keeps its row, and if nothing was inconsistent the row says
what was asked for.  `Builder.Reached` runs through any calls on a builder and keeps a log of the
shapes given out; registering a model is one of the calls.  Main statements:

* `Builder.add_cases`, `Builder.places_add`: what one declaration does to a builder;
* `Model.declared`: a registered model has a row of its name and structure, and so have the models
  that it depends on;
* `Builder.Reached.toNat_place`: places are the same in the 32 bits that programs keep them in, for
  tables of no more than `2 ^ 32` rows;
* `Builder.table_of_reached`: names and places of the table answer each other, references go to
  earlier rows, and every shape given out has the row that was asked for.
-/
import SimpleSerialize.Model

namespace SimpleSerialize

/-! ### Rows -/

namespace Declaration

theorem sameStructure_self (d : Declaration) : d.sameStructure d = true := by
  cases d <;> simp [sameStructure]

/-- Only subclasses can have one structure without being the same. -/
theorem eq_of_sameStructure {known d : Declaration} (same : known.sameStructure d = true)
    (plain : ∀ target rebuild, d ≠ .subclass target rebuild) : known = d := by
  cases d with
  | subclass target rebuild => exact absurd rfl (plain target rebuild)
  | _ => cases known <;> simp_all [sameStructure]

theorem eq_subclass_of_sameStructure {known : Declaration} {target : ShapeId} {rebuild : Rebuild}
    (same : known.sameStructure (.subclass target rebuild) = true) :
    ∃ rebuild, known = .subclass target rebuild := by
  cases known <;> simp_all [sameStructure]

end Declaration

namespace Schema

variable {s t : Schema} {id : ShapeId} {name : String} {d : Declaration}

/-- The row of a shape has a name and a structure. -/
def Row (s : Schema) (id : ShapeId) (name : String) (d : Declaration) : Prop :=
  ∃ e, s.entries[id]? = some e ∧ e.name = name ∧ e.declaration.sameStructure d = true

theorem Row.lt_size (row : s.Row id name d) : id < s.size := by
  obtain ⟨e, here, -⟩ := row
  exact (List.getElem?_eq_some_iff.mp here).1

theorem Row.name_eq (row : s.Row id name d) : s.name id = name := by
  obtain ⟨e, here, rfl, -⟩ := row
  rw [Schema.name, here]
  rfl

theorem Row.declaration_eq (row : s.Row id name d)
    (plain : ∀ target rebuild, d ≠ .subclass target rebuild) : s.declaration? id = some d := by
  obtain ⟨e, here, -, same⟩ := row
  rw [declaration?, here, Option.map_some, Declaration.eq_of_sameStructure same plain]

theorem Row.subclass_eq {target : ShapeId} {rebuild : Rebuild}
    (row : s.Row id name (.subclass target rebuild)) :
    ∃ rebuild, s.declaration? id = some (.subclass target rebuild) := by
  obtain ⟨e, here, -, same⟩ := row
  obtain ⟨rebuild, known⟩ := Declaration.eq_subclass_of_sameStructure same
  exact ⟨rebuild, by rw [declaration?, here, Option.map_some, known]⟩

/-- A row stays in every longer table. -/
theorem getElem?_of_longer {e : Entry} (longer : s.entries <+: t.entries)
    (here : s.entries[id]? = some e) : t.entries[id]? = some e := by
  obtain ⟨more, same⟩ := longer
  rw [← same]
  exact (List.getElem?_append_left (List.getElem?_eq_some_iff.mp here).1).trans here

theorem Row.mono (longer : s.entries <+: t.entries) (row : s.Row id name d) :
    t.Row id name d := by
  obtain ⟨e, here, named, same⟩ := row
  exact ⟨e, getElem?_of_longer longer here, named, same⟩

theorem name_of_longer (longer : s.entries <+: t.entries) (known : id < s.size) :
    t.name id = s.name id := by
  have here : s.entries[id]? = some s.entries[id] := List.getElem?_eq_getElem known
  rw [name, name, here, getElem?_of_longer longer here]

/-- A row of a table has a place there and gives it its name. -/
theorem place_of_entry {e : Entry} (here : s.entries[id]? = some e) :
    id < s.size ∧ s.name id = e.name := by
  refine ⟨(List.getElem?_eq_some_iff.mp here).1, ?_⟩
  rw [Schema.name, here]
  rfl

/-- Every row is found by its name. -/
theorem WellFormed.find?_name (wf : s.WellFormed) (known : id < s.size) :
    s.find? (s.name id) = some id := by
  have here : s.name id = s.entries[id].name := by
    rw [Schema.name, List.getElem?_eq_getElem known]
    rfl
  rw [find?_eq]
  refine List.findIdx?_eq_some_iff_getElem.mpr ⟨known, beq_iff_eq.mpr here.symm, fun j before => ?_⟩
  -- An earlier row of the same name would be another row of that name.
  have names : s.entries.Pairwise fun a b => a.name ≠ b.name := List.pairwise_map.mp wf.nodup
  have differ := List.pairwise_iff_getElem.mp names j id (Nat.lt_trans before known) known before
  exact fun named => differ ((eq_of_beq named).trans here)

end Schema
/-! ### Builders that grow -/

namespace Builder

variable {b b' b'' : Builder} {name : String} {d : Declaration}

/-- A later state of a builder: the rows of its table stay, and an inconsistency stays noted. -/
structure Grows (b b' : Builder) : Prop where
  rows : b.schema.entries <+: b'.schema.entries
  sound : b'.fault = none → b.fault = none

theorem Grows.refl (b : Builder) : b.Grows b := ⟨List.prefix_refl _, id⟩

theorem Grows.trans (first : b.Grows b') (second : b'.Grows b'') : b.Grows b'' :=
  ⟨first.rows.trans second.rows, fun none => first.sound (second.sound none)⟩

theorem Grows.size_le (grows : b.Grows b') : b.schema.size ≤ b'.schema.size :=
  grows.rows.length_le

/-- A builder that has noted an inconsistency has one. -/
theorem fault_report (b : Builder) (e : SchemaError) : (b.report e).fault ≠ none := by
  rw [report]
  cases b.fault <;> nofun

theorem grows_report (b : Builder) (e : SchemaError) : b.Grows (b.report e) :=
  ⟨List.prefix_refl _, fun none => absurd none (fault_report b e)⟩

/-- What a step of declaring does to a builder: the table grows and stays well formed, and what the
step gives out has its meaning in the table unless something was inconsistent. -/
structure Keeps (b : Builder) {α : Type} (meaning : Schema → α → Prop) (outcome : α × Builder) :
    Prop where
  grows : b.Grows outcome.2
  wellFormed : outcome.2.schema.WellFormed
  meant : outcome.2.fault = none → meaning outcome.2.schema outcome.1

/-- The same of a step that gives out a place, which has the name that was asked for. -/
structure Places (b : Builder) (name : String) (meaning : Schema → ShapeId → Prop)
    (outcome : ShapeId × Builder) : Prop extends b.Keeps meaning outcome where
  known : outcome.1 < outcome.2.schema.size
  named : outcome.2.schema.name outcome.1 = name

section Steps

variable {α : Type} {before : Schema → α → Prop} {meaning : Schema → ShapeId → Prop}
  {first : α × Builder} {outcome : ShapeId × Builder}

/-- A place stays where it is when the table grows on. -/
theorem Places.known_of_grows (placed : b.Places name meaning outcome) (grows : outcome.2.Grows b') :
    outcome.1 < b'.schema.size :=
  Nat.lt_of_lt_of_le placed.known grows.size_le

theorem Places.imp {other : Schema → ShapeId → Prop} (placed : b.Places name meaning outcome)
    (step : ∀ s id, meaning s id → other s id) : b.Places name other outcome :=
  ⟨⟨placed.grows, placed.wellFormed, fun none => step _ _ (placed.meant none)⟩, placed.known,
    placed.named⟩

/-- What was given out before a place is given out keeps its meaning. -/
theorem Keeps.places (kept : b.Keeps before first)
    (mono : ∀ {s t : Schema} {a : α}, s.entries <+: t.entries → before s a → before t a)
    (placed : first.2.Places name meaning outcome) :
    b.Places name (fun s id => before s first.1 ∧ meaning s id) outcome where
  grows := kept.grows.trans placed.grows
  wellFormed := placed.wellFormed
  meant none :=
    ⟨mono placed.grows.rows (kept.meant (placed.grows.sound none)), placed.meant none⟩
  known := placed.known
  named := placed.named

end Steps

/-- What declaring a name does: a name that was declared keeps its place, and an inconsistency is
noted unless it was declared as it is now; the row of a new name goes to the end of the table. -/
theorem add_cases (b : Builder) (name : String) (d : Declaration) :
    (∃ id e, b.schema.entries[id]? = some e ∧ e.name = name ∧
      e.declaration.sameStructure d = true ∧ b.add name d = (id, b)) ∨
    (∃ id e, b.schema.entries[id]? = some e ∧ e.name = name ∧
      e.declaration.sameStructure d ≠ true ∧
      b.add name d = (id, b.report (.conflictingDeclaration name))) ∨
    ((∀ e ∈ b.schema.entries, e.name ≠ name) ∧
      b.add name d = (b.schema.size, { b with schema := b.schema.push ⟨name, d⟩ })) := by
  rw [add]
  cases found : b.schema.find? name with
  | none =>
    refine .inr (.inr ⟨fun e mem named => ?_, rfl⟩)
    rw [Schema.find?_eq] at found
    have other := List.findIdx?_eq_none_iff.mp found e mem
    simp [named] at other
  | some id =>
    have place := found
    rw [Schema.find?_eq] at place
    obtain ⟨inside, named, -⟩ := List.findIdx?_eq_some_iff_getElem.mp place
    have here : b.schema.entries[id]? = some b.schema.entries[id] := List.getElem?_eq_getElem inside
    have declared : b.schema.declaration? id = some b.schema.entries[id].declaration := by
      rw [Schema.declaration?, here, Option.map_some]
    simp only [declared]
    by_cases same : b.schema.entries[id].declaration.sameStructure d = true
    · rw [if_pos same]
      exact .inl ⟨id, _, here, eq_of_beq named, same, rfl⟩
    · rw [if_neg same]
      exact .inr (.inl ⟨id, _, here, eq_of_beq named, same, rfl⟩)

/-- A declaration is given a place of its name, and its structure unless that is inconsistent with
an earlier declaration. -/
theorem places_add (wf : b.schema.WellFormed) (known : ∀ r ∈ d.references, r < b.schema.size) :
    b.Places name (fun s id => s.Row id name d) (b.add name d) := by
  have wellFormed := @wellFormed_add b name d wf known
  obtain ⟨id, e, here, rfl, same, run⟩ | ⟨id, e, here, rfl, -, run⟩ | ⟨-, run⟩ := b.add_cases name d
  · rw [run]
    obtain ⟨known, named⟩ := Schema.place_of_entry here
    exact ⟨⟨.refl b, wf, fun _ => ⟨e, here, rfl, same⟩⟩, known, named⟩
  · rw [run]
    obtain ⟨known, named⟩ := Schema.place_of_entry here
    exact ⟨⟨grows_report b _, wf, fun none => absurd none (fault_report b _)⟩, known, named⟩
  · rw [run] at wellFormed ⊢
    have row : (b.schema.push ⟨name, d⟩).Row b.schema.size name d :=
      ⟨_, b.schema.getElem?_push _, rfl, d.sameStructure_self⟩
    exact ⟨⟨⟨b.schema.prefix_push _, id⟩, wellFormed, fun _ => row⟩, row.lt_size, row.name_eq⟩

theorem places_basic (wf : b.schema.WellFormed) (kind : BasicKind) :
    b.Places kind.shapeName (fun s id => s.Row id kind.shapeName (.basic kind))
      (Declare.basic kind b) := by
  have declared (b : Builder) (wf : b.schema.WellFormed) :
      b.Places kind.shapeName (fun s id => s.Row id kind.shapeName (.basic kind))
        (b.add kind.shapeName (.basic kind)) :=
    places_add wf nofun
  cases kind with
  | uint width =>
    by_cases allowed : width ∈ BasicKind.uintWidths
    · have run : Declare.basic (.uint width) b =
          b.add (BasicKind.uint width).shapeName (.basic (.uint width)) := by
        simp only [Declare.basic, allowed]
        rfl
      rw [run]
      exact declared b wf
    · -- The width is noted as an inconsistency before the shape is declared.
      have run : Declare.basic (.uint width) b =
          (b.report (.unsupported (BasicKind.uint width).shapeName none none)).add
            (BasicKind.uint width).shapeName (.basic (.uint width)) := by
        simp only [Declare.basic, allowed]
        rfl
      rw [run]
      have placed := declared (b.report (.unsupported (BasicKind.uint width).shapeName none none)) wf
      exact ⟨⟨(grows_report b _).trans placed.grows, placed.wellFormed, placed.meant⟩, placed.known,
        placed.named⟩
  | _ => exact declared b wf

end Builder

/-! ### Calls -/

namespace Declare

variable {b : Builder}

theorem run_mapM_nameOf (ids : List ShapeId) : ids.mapM nameOf b = (ids.map b.schema.name, b) := by
  induction ids with
  | nil => rfl
  | cons id ids ih =>
    rw [List.mapM_cons, List.map_cons]
    change ((ids.mapM nameOf b).1.cons (b.schema.name id), (ids.mapM nameOf b).2) = _
    rw [ih]

theorem run_union (name : Option String) (variants : List ShapeId) (nullable : Bool) :
    union name variants nullable b =
      b.add (name.getD (ShapeName.union nullable (variants.map b.schema.name)))
        (.union variants nullable) := by
  change declare (name.getD (ShapeName.union nullable (variants.mapM nameOf b).1))
    (.union variants nullable) (variants.mapM nameOf b).2 = _
  rw [run_mapM_nameOf]
  rfl

end Declare

/-! ### Models -/

namespace Model

mutual

/-- A shape has a row of the name and the structure of a model, and so have the shapes that it
depends on. -/
def DeclaredIn : Model → Schema → ShapeId → Prop
  | .bool, s, id => s.Row id (shapeName .bool) (.basic .bool)
  | .uint size, s, id => s.Row id (shapeName (.uint size)) (.basic (.uint (UInt8.ofNat size.bytes)))
  | .uint256, s, id => s.Row id (shapeName .uint256) (.basic (.uint 32))
  | .bytes length, s, id => s.Row id (shapeName (.bytes length)) (.basic (.bytes length))
  | .list element, s, id => ∃ e, element.DeclaredIn s e ∧
    s.Row id (shapeName (.list element)) (.sequence e .unbounded)
  | .option body, s, id => ∃ e, body.DeclaredIn s e ∧
    s.Row id (shapeName (.option body)) (.union [e] true)
  | .vector element length, s, id => ∃ e, element.DeclaredIn s e ∧
    s.Row id (shapeName (.vector element length)) (.sequence e (.vector (.literal length)))
  | .boundedList element limit, s, id => ∃ e, element.DeclaredIn s e ∧
    s.Row id (shapeName (.boundedList element limit)) (.sequence e (.bounded (.literal limit)))
  | .sizedVector element length, s, id => ∃ e, element.DeclaredIn s e ∧
    s.Row id (shapeName (.sizedVector element length)) (.sequence e (.vector (.named length)))
  | .sizedList element limit, s, id => ∃ e, element.DeclaredIn s e ∧
    s.Row id (shapeName (.sizedList element limit)) (.sequence e (.bounded (.named limit)))
  | .newtype name inner check, s, id => ∃ e, inner.DeclaredIn s e ∧
    s.Row id name (.subclass e check)
  | .record name fields, s, id => ∃ fs, FieldsDeclaredIn fields s fs ∧ s.Row id name (.container fs)
  | .choice name nullable variants, s, id => ∃ vs, VariantsDeclaredIn variants s vs ∧
    s.Row id name (.union vs nullable)

/-- Fields are those of a record of models. -/
def FieldsDeclaredIn : ModelFields → Schema → List Field → Prop
  | .nil, _, fs => fs = []
  | .cons name model hint rest, s, fs => ∃ id others, model.DeclaredIn s id ∧
    FieldsDeclaredIn rest s others ∧ fs = ⟨name, id, hint⟩ :: others

/-- Shapes are those of the variants of a choice of models. -/
def VariantsDeclaredIn : ModelVariants → Schema → List ShapeId → Prop
  | .nil, _, ids => ids = []
  | .cons model rest, s, ids => ∃ id others, model.DeclaredIn s id ∧
    VariantsDeclaredIn rest s others ∧ ids = id :: others

end

mutual

/-- What is declared in a table is declared in every longer one. -/
theorem DeclaredIn.mono {s t : Schema} (longer : s.entries <+: t.entries) :
    ∀ (m : Model) {id : ShapeId}, m.DeclaredIn s id → m.DeclaredIn t id
  | .bool, _, h | .uint _, _, h | .uint256, _, h | .bytes _, _, h => Schema.Row.mono longer h
  | .list element, _, ⟨e, inside, row⟩ | .vector element _, _, ⟨e, inside, row⟩
  | .boundedList element _, _, ⟨e, inside, row⟩ | .sizedVector element _, _, ⟨e, inside, row⟩
  | .sizedList element _, _, ⟨e, inside, row⟩ | .option element, _, ⟨e, inside, row⟩
  | .newtype _ element _, _, ⟨e, inside, row⟩ =>
    ⟨e, DeclaredIn.mono longer element inside, row.mono longer⟩
  | .record _ fields, _, ⟨fs, inside, row⟩ =>
    ⟨fs, FieldsDeclaredIn.mono longer fields inside, row.mono longer⟩
  | .choice _ _ variants, _, ⟨vs, inside, row⟩ =>
    ⟨vs, VariantsDeclaredIn.mono longer variants inside, row.mono longer⟩

theorem FieldsDeclaredIn.mono {s t : Schema} (longer : s.entries <+: t.entries) :
    ∀ (fields : ModelFields) {fs : List Field}, FieldsDeclaredIn fields s fs →
      FieldsDeclaredIn fields t fs
  | .nil, _, h => h
  | .cons _ model _ rest, _, ⟨id, others, first, remaining, same⟩ =>
    ⟨id, others, DeclaredIn.mono longer model first, FieldsDeclaredIn.mono longer rest remaining,
      same⟩

theorem VariantsDeclaredIn.mono {s t : Schema} (longer : s.entries <+: t.entries) :
    ∀ (variants : ModelVariants) {ids : List ShapeId}, VariantsDeclaredIn variants s ids →
      VariantsDeclaredIn variants t ids
  | .nil, _, h => h
  | .cons model rest, _, ⟨id, others, first, remaining, same⟩ =>
    ⟨id, others, DeclaredIn.mono longer model first, VariantsDeclaredIn.mono longer rest remaining,
      same⟩

end

/-- A shape is declared over that of a model, and named after it. -/
theorem places_over (nameOver : String → String) (d : Declaration) {b : Builder} {inner : Model}
    {first : ShapeId × Builder}
    (placed : b.Places inner.shapeName inner.DeclaredIn first)
    (alone : ∀ r ∈ d.references, r = first.1) :
    b.Places (nameOver inner.shapeName)
      (fun s id => ∃ e, inner.DeclaredIn s e ∧ e = first.1 ∧ s.Row id (nameOver inner.shapeName) d)
      (first.2.add (nameOver (first.2.schema.name first.1)) d) := by
  rw [placed.named]
  have row : first.2.Places (nameOver inner.shapeName)
      (fun s id => s.Row id (nameOver inner.shapeName) d)
      (first.2.add (nameOver inner.shapeName) d) := by
    refine Builder.places_add placed.wellFormed fun r mem => ?_
    rw [alone r mem]
    exact placed.known
  refine (placed.places (fun longer => DeclaredIn.mono longer inner) row).imp ?_
  exact fun s id ⟨inside, row⟩ => ⟨first.1, inside, rfl, row⟩

/-- A sequence of a model. -/
theorem places_sequence (nameOver : String → String) (size : SizeRule) {b : Builder} {inner : Model}
    (placed : b.Places inner.shapeName inner.DeclaredIn (inner.declare b)) :
    b.Places (nameOver inner.shapeName)
      (fun s id => ∃ e, inner.DeclaredIn s e ∧
        s.Row id (nameOver inner.shapeName) (.sequence e size))
      ((inner.declare b).2.add (nameOver ((inner.declare b).2.schema.name (inner.declare b).1))
        (.sequence (inner.declare b).1 size)) := by
  refine (places_over nameOver (.sequence (inner.declare b).1 size) placed
    fun r mem => List.mem_singleton.mp mem).imp ?_
  rintro s id ⟨e, inside, rfl, row⟩
  exact ⟨_, inside, row⟩

mutual

/-- Declaring a model gives out a place of its name, at which the model is declared. -/
theorem declared (b : Builder) (wf : b.schema.WellFormed) :
    ∀ m : Model, b.Places m.shapeName m.DeclaredIn (m.declare b)
  | .bool => Builder.places_basic wf .bool
  | .uint size => Builder.places_basic wf (.uint (UInt8.ofNat size.bytes))
  | .uint256 => Builder.places_basic wf (.uint 32)
  | .bytes length => Builder.places_basic wf (.bytes length)
  | .list element => places_sequence (ShapeName.list · none) .unbounded (declared b wf element)
  | .vector element length =>
    places_sequence (ShapeName.vector · (.literal length)) (.vector (.literal length))
      (declared b wf element)
  | .boundedList element limit =>
    places_sequence (ShapeName.list · (some (.literal limit))) (.bounded (.literal limit))
      (declared b wf element)
  | .sizedVector element length =>
    places_sequence (ShapeName.vector · (.named length)) (.vector (.named length))
      (declared b wf element)
  | .sizedList element limit =>
    places_sequence (ShapeName.list · (some (.named limit))) (.bounded (.named limit))
      (declared b wf element)
  | .option body => by
    have run : (Model.option body).declare b = (body.declare b).2.add
        (ShapeName.union true [(body.declare b).2.schema.name (body.declare b).1])
        (.union [(body.declare b).1] true) :=
      Declare.run_union none [(body.declare b).1] true
    rw [run]
    refine (places_over (ShapeName.union true [·]) (.union [(body.declare b).1] true)
      (declared b wf body) fun r mem => List.mem_singleton.mp mem).imp ?_
    rintro s id ⟨e, inside, rfl, row⟩
    exact ⟨_, inside, row⟩
  | .newtype name inner check => by
    refine (places_over (fun _ => name) (.subclass (inner.declare b).1 check)
      (declared b wf inner) fun r mem => List.mem_singleton.mp mem).imp ?_
    rintro s id ⟨e, inside, rfl, row⟩
    exact ⟨_, inside, row⟩
  | .record name fields => by
    obtain ⟨kept, known⟩ := declaredFields b wf fields
    have row : (declareFields fields b).2.Places name _ ((Model.record name fields).declare b) :=
      Builder.places_add kept.wellFormed fun r mem => known r mem
    refine (kept.places (fun longer => FieldsDeclaredIn.mono longer fields) row).imp ?_
    exact fun s id found => ⟨_, found⟩
  | .choice name nullable variants => by
    obtain ⟨kept, known⟩ := declaredVariants b wf variants
    have run : (Model.choice name nullable variants).declare b =
        (declareVariants variants b).2.add name
          (.union (declareVariants variants b).1 nullable) :=
      Declare.run_union (some name) (declareVariants variants b).1 nullable
    rw [run]
    have row : (declareVariants variants b).2.Places name
        (fun s id => s.Row id name (.union (declareVariants variants b).1 nullable)) _ :=
      Builder.places_add kept.wellFormed known
    refine (kept.places (fun longer => VariantsDeclaredIn.mono longer variants) row).imp ?_
    exact fun s id found => ⟨_, found⟩

/-- The fields of a record are given places, one after the other. -/
theorem declaredFields (b : Builder) (wf : b.schema.WellFormed) : ∀ fields : ModelFields,
    b.Keeps (FieldsDeclaredIn fields) (declareFields fields b) ∧
      ∀ r ∈ (declareFields fields b).1.map (·.shape), r < (declareFields fields b).2.schema.size
  | .nil => ⟨⟨.refl b, wf, fun _ => rfl⟩, nofun⟩
  | .cons name model hint rest => by
    have first := declared b wf model
    obtain ⟨kept, known⟩ := declaredFields (model.declare b).2 first.wellFormed rest
    refine ⟨⟨first.grows.trans kept.grows, kept.wellFormed, fun none => ?_⟩, ?_⟩
    · have inside := first.meant (kept.grows.sound none)
      exact ⟨_, _, DeclaredIn.mono kept.grows.rows model inside, kept.meant none, rfl⟩
    · exact List.forall_mem_cons.mpr ⟨first.known_of_grows kept.grows, known⟩

theorem declaredVariants (b : Builder) (wf : b.schema.WellFormed) : ∀ variants : ModelVariants,
    b.Keeps (VariantsDeclaredIn variants) (declareVariants variants b) ∧
      ∀ r ∈ (declareVariants variants b).1, r < (declareVariants variants b).2.schema.size
  | .nil => ⟨⟨.refl b, wf, fun _ => rfl⟩, nofun⟩
  | .cons model rest => by
    have first := declared b wf model
    obtain ⟨kept, known⟩ := declaredVariants (model.declare b).2 first.wellFormed rest
    refine ⟨⟨first.grows.trans kept.grows, kept.wellFormed, fun none => ?_⟩, ?_⟩
    · have inside := first.meant (kept.grows.sound none)
      exact ⟨_, _, DeclaredIn.mono kept.grows.rows model inside, kept.meant none, rfl⟩
    · exact List.forall_mem_cons.mpr ⟨first.known_of_grows kept.grows, known⟩

end

end Model

/-! ### Any calls on a builder -/

namespace Builder

/-- What may be asked of a builder. -/
inductive Request
  | declare (name : String) (d : Declaration)
  | basic (kind : BasicKind)
  | vector (element : ShapeId) (length : Extent)
  | list (element : ShapeId) (limit : Option Extent)
  | union (name : Option String) (variants : List ShapeId) (nullable : Bool)
  | container (name : String) (fields : List Field)
  | subclass (name : String) (target : ShapeId) (rebuild : Rebuild)
  /-- Declares the shape of a model and all shapes that it depends on. -/
  | register (m : Model)

namespace Request

def run : Request → Declare ShapeId
  | declare name d => Declare.declare name d
  | basic kind => Declare.basic kind
  | vector element length => Declare.vector element length
  | list element limit => Declare.list element limit
  | union name variants nullable => Declare.union name variants nullable
  | container name fields => Declare.container name fields
  | subclass name target rebuild => Declare.subclass name target rebuild
  | register m => m.declare

/-- The shapes that a request refers to. -/
def references : Request → List ShapeId
  | declare _ d => d.references
  | basic _ => []
  | vector element _ => [element]
  | list element _ => [element]
  | union _ variants _ => variants
  | container _ fields => fields.map (·.shape)
  | subclass _ target _ => [target]
  | register _ => []

/-- The name and the structure that a request asks for, among shapes of some names.  A model asks
for more than one row. -/
def row? (names : ShapeId → String) : Request → Option (String × Declaration)
  | declare name d => some (name, d)
  | basic kind => some (kind.shapeName, .basic kind)
  | vector element length =>
    some (ShapeName.vector (names element) length, .sequence element (.vector length))
  | list element (some limit) =>
    some (ShapeName.list (names element) (some limit), .sequence element (.bounded limit))
  | list element none => some (ShapeName.list (names element) none, .sequence element .unbounded)
  | union name variants nullable =>
    some (name.getD (ShapeName.union nullable (variants.map names)), .union variants nullable)
  | container name fields => some (name, .container fields)
  | subclass name target rebuild => some (name, .subclass target rebuild)
  | register _ => none

/-- A shape of a table is what a request asked for. -/
def Granted (q : Request) (s : Schema) (id : ShapeId) : Prop :=
  match q with
  | register m => m.DeclaredIn s id
  | q => ∃ row ∈ q.row? s.name, s.Row id row.1 row.2

variable {b b' : Builder} {s t : Schema} {id : ShapeId} {q : Request} {name : String}
  {d : Declaration}

/-- Only the names of the shapes that a request refers to count. -/
theorem row?_congr {names names' : ShapeId → String}
    (same : ∀ r ∈ q.references, names r = names' r) : q.row? names = q.row? names' := by
  cases q with
  | vector element length => rw [row?, row?, same element List.mem_cons_self]
  | list element limit =>
    cases limit <;> rw [row?, row?, same element List.mem_cons_self]
  | union name variants nullable =>
    have every : variants.map names = variants.map names' := List.map_congr_left same
    rw [row?, row?, every]
  | _ => rfl

theorem row?_of_longer (longer : s.entries <+: t.entries) (known : ∀ r ∈ q.references, r < s.size) :
    q.row? t.name = q.row? s.name :=
  row?_congr fun r mem => Schema.name_of_longer longer (known r mem)

/-- What a row refers to is what its request referred to. -/
theorem references_of_row? {names : ShapeId → String} (asked : q.row? names = some (name, d)) :
    ∀ r ∈ d.references, r ∈ q.references := by
  cases q with
  | list element limit => cases limit <;> cases asked <;> exact fun _ mem => mem
  | register m => cases asked
  | _ =>
    cases asked
    exact fun _ mem => mem

theorem granted_of_row (asked : q.row? s.name = some (name, d)) (row : s.Row id name d) :
    q.Granted s id := by
  cases q with
  | register m => cases asked
  | _ => exact ⟨_, asked, row⟩

/-- What was granted is granted by every longer table. -/
theorem Granted.mono (longer : s.entries <+: t.entries) (known : ∀ r ∈ q.references, r < s.size)
    (granted : q.Granted s id) : q.Granted t id := by
  have same := row?_of_longer longer known
  cases q with
  | register m => exact Model.DeclaredIn.mono longer m granted
  | _ =>
    obtain ⟨row, asked, found⟩ := granted
    exact ⟨row, same.trans asked, found.mono longer⟩

/-- A request for a row adds it, except that the width of an integer is looked at first. -/
theorem run_eq_add (asked : q.row? b.schema.name = some (name, d)) (plain : ∀ kind, q ≠ basic kind) :
    q.run b = b.add name d := by
  cases q with
  | basic kind => exact absurd rfl (plain kind)
  | register m => cases asked
  | union given variants nullable =>
    cases asked
    exact Declare.run_union given variants nullable
  | list element limit => cases limit <;> cases asked <;> rfl
  | _ =>
    cases asked
    rfl

/-- A request that refers to known shapes is granted, unless something was inconsistent. -/
theorem placed (wf : b.schema.WellFormed) (q : Request)
    (known : ∀ r ∈ q.references, r < b.schema.size) :
    ∃ name, b.Places name q.Granted (q.run b) := by
  cases asked : q.row? b.schema.name with
  | none =>
    cases q with
    | register m => exact ⟨_, Model.declared b wf m⟩
    | list element limit => cases limit <;> cases asked
    | _ => cases asked
  | some row =>
    obtain ⟨name, d⟩ := row
    have placed : b.Places name (fun s id => s.Row id name d) (q.run b) := by
      by_cases basic : ∃ kind, q = basic kind
      · obtain ⟨kind, rfl⟩ := basic
        cases asked
        exact places_basic wf kind
      · rw [run_eq_add asked fun kind same => basic ⟨kind, same⟩]
        exact places_add wf fun r mem => known r (references_of_row? asked r mem)
    refine ⟨name, ⟨placed.grows, placed.wellFormed, fun none => ?_⟩, placed.known, placed.named⟩
    exact granted_of_row ((row?_of_longer placed.grows.rows known).trans asked) (placed.meant none)

end Request

/-- The states of a builder that was asked for some shapes, one after the other, each of which
refers to shapes given out before.  The log tells what was asked for and which place was given. -/
inductive Reached : List (Request × ShapeId) → Builder → Prop
  | start : Reached [] {}
  | call {log : List (Request × ShapeId)} {b : Builder} (q : Request) : Reached log b →
    (∀ r ∈ q.references, r < b.schema.size) → Reached (log ++ [(q, (q.run b).1)]) (q.run b).2

variable {b : Builder} {log : List (Request × ShapeId)}

theorem Reached.wellFormed (reached : Reached log b) : b.schema.WellFormed := by
  induction reached with
  | start => exact ⟨nofun, .nil⟩
  | call q _ known ih =>
    obtain ⟨name, placed⟩ := Request.placed ih q known
    exact placed.wellFormed

/-- Everything in the log is in the table. -/
theorem Reached.known (reached : Reached log b) :
    ∀ call ∈ log, call.2 < b.schema.size ∧ ∀ r ∈ call.1.references, r < b.schema.size := by
  induction reached with
  | start => nofun
  | @call log b q reached known ih =>
    obtain ⟨name, placed⟩ := Request.placed reached.wellFormed q known
    have more : b.schema.size ≤ (q.run b).2.schema.size := placed.grows.size_le
    intro call mem
    rcases List.mem_append.mp mem with before | last
    · obtain ⟨here, others⟩ := ih call before
      exact ⟨Nat.lt_of_lt_of_le here more, fun r mem => Nat.lt_of_lt_of_le (others r mem) more⟩
    · obtain rfl := List.mem_singleton.mp last
      exact ⟨placed.known, fun r mem => Nat.lt_of_lt_of_le (known r mem) more⟩

/-- Places that were given out are the same in 32 bits, as long as these can count the rows. -/
theorem Reached.toNat_place (reached : Reached log b) (few : b.schema.size ≤ UInt32.size) :
    ∀ call ∈ log, (UInt32.ofNat call.2).toNat = call.2 := by
  intro call mem
  exact UInt32.toNat_ofNat_of_lt' (Nat.lt_of_lt_of_le (reached.known call mem).1 few)

/-- Whatever was asked for is granted, unless something was inconsistent. -/
theorem Reached.granted (reached : Reached log b) (sound : b.fault = none) :
    ∀ call ∈ log, call.1.Granted b.schema call.2 := by
  induction reached with
  | start => nofun
  | @call log b q reached known ih =>
    obtain ⟨name, placed⟩ := Request.placed reached.wellFormed q known
    intro call mem
    rcases List.mem_append.mp mem with before | last
    · have granted := ih (placed.grows.sound sound) call before
      exact granted.mono placed.grows.rows (reached.known call before).2
    · obtain rfl := List.mem_singleton.mp last
      exact placed.meant sound

theorem build_eq_ok {s : Schema} : b.build = .ok s ↔ b.fault = none ∧ b.schema = s := by
  rw [build]
  cases b.fault <;> simp

/-- A table that was built has every model that was registered on the way to it. -/
theorem Reached.declaredIn {m : Model} {shape : ShapeId} {s : Schema} (reached : Reached log b)
    (built : b.build = .ok s) (registered : (.register m, shape) ∈ log) :
    s.WellFormed ∧ m.DeclaredIn s shape := by
  obtain ⟨sound, rfl⟩ := build_eq_ok.mp built
  exact ⟨reached.wellFormed, reached.granted sound _ registered⟩

/-- Whatever a builder was asked for, names and places of its table answer each other, references go
to earlier rows, no call changes a row that is there, and if nothing was inconsistent then every
place that was given out has the row that was asked for. -/
theorem table_of_reached (reached : Reached log b) :
    (b.schema.entries.map (·.name)).Nodup ∧
      (∀ id < b.schema.size, b.schema.find? (b.schema.name id) = some id) ∧
      (∀ id d, b.schema.declaration? id = some d → ∀ r ∈ d.references, r < id) ∧
      (∀ q : Request, (∀ r ∈ q.references, r < b.schema.size) → ∀ (id : ShapeId) (e : Entry),
        b.schema.entries[id]? = some e → (q.run b).2.schema.entries[id]? = some e) ∧
      (∀ call ∈ log, call.2 < b.schema.size) ∧
      ∀ s, b.build = .ok s → ∀ call ∈ log, call.1.Granted s call.2 := by
  have wf := reached.wellFormed
  refine ⟨wf.nodup, fun id known => wf.find?_name known, fun id d declared => ?_,
    fun q known id e here => ?_, fun call mem => (reached.known call mem).1, fun s built => ?_⟩
  · obtain ⟨e, here, rfl⟩ := Option.map_eq_some_iff.mp declared
    exact wf.references_lt id e here
  · obtain ⟨name, placed⟩ := Request.placed wf q known
    exact Schema.getElem?_of_longer placed.grows.rows here
  · obtain ⟨sound, rfl⟩ := build_eq_ok.mp built
    exact reached.granted sound

/-- A number is asked for, then a list of such numbers as a model, and a subclass of the list. -/
theorem table_of_reached_numbers :
    let rows : List Entry := [⟨"uint64", .basic (.uint 8)⟩, ⟨"List[uint64]", .sequence 0 .unbounded⟩,
      ⟨"Numbers", .subclass 1 .ok⟩]
    let b : Builder := { schema := { entries := rows } }
    let numbers : Model := .list (.uint .eight)
    Reached [(.basic (.uint 8), 0), (.register numbers, 1), (.subclass "Numbers" 1 .ok, 2)] b ∧
      b.schema.find? "List[uint64]" = some 1 ∧ numbers.DeclaredIn b.schema 1 := by
  intro rows b numbers
  have reached : Reached
      [(.basic (.uint 8), 0), (.register numbers, 1), (.subclass "Numbers" 1 .ok, 2)] b :=
    .call (.subclass "Numbers" 1 .ok)
      (.call (.register numbers) (.call (.basic (.uint 8)) .start nofun) nofun) (by decide)
  obtain ⟨-, found, -, -, -, granted⟩ := table_of_reached reached
  exact ⟨reached, found 1 (by decide), granted b.schema rfl (.register numbers, 1) (by simp)⟩

end Builder

end SimpleSerialize
