/-
Declaring models again.

The name of a model is computed in two ways: from the model, and by the builder from the names that
the table has for the parts.  A builder that has declared a model has, for each model within it, a
row under its name which is over the rows of its parts (`Model.Settled`), and it keeps them whatever
is asked of it later.  From then on declaring the model finds its row and leaves the builder as it
is, also if an inconsistency was met in between.  Main statements:

* `Model.settled_declare`: a declared model is settled, with all models within it;
* `Model.declare_of_settled`: declaring a settled model gives its place and changes nothing;
* `Codec.shapeOf_of_reached`: a model answers to its name at any later time, in the builder and in
  every codec over the finished table.
-/
import SimpleSerialize.Model.Codec
import SimpleSerialize.Proofs.Registering

namespace SimpleSerialize

/-! ### Rows that are there -/

namespace Builder

variable {b : Builder} {name : String} {d : Declaration} {id : ShapeId}

/-- A place has a name and, unless something was inconsistent, a structure.  Where an inconsistency
was met the row may be of another structure under the same name. -/
structure Holds (b : Builder) (name : String) (d : Declaration) (id : ShapeId) : Prop where
  known : id < b.schema.size
  named : b.schema.name id = name
  row : b.fault = none → b.schema.Row id name d

/-- Only the first inconsistency is noted. -/
theorem report_of_fault {first : SchemaError} (noted : b.fault = some first) (e : SchemaError) :
    b.report e = b := by
  obtain ⟨schema, fault⟩ := b
  cases noted
  rfl

/-- Declaring what is there changes nothing. -/
theorem add_of_holds (wf : b.schema.WellFormed) (holds : b.Holds name d id) :
    b.add name d = (id, b) := by
  -- A row of the name is the one that is there.
  have only {id' : ShapeId} {e : Entry} (here : b.schema.entries[id']? = some e)
      (named : e.name = name) : id' = id := by
    obtain ⟨known, found⟩ := Schema.place_of_entry here
    have place := wf.find?_name known
    rw [found, named, ← holds.named, wf.find?_name holds.known] at place
    exact (Option.some.inj place).symm
  obtain ⟨id', e, here, named, -, run⟩ | ⟨id', e, here, named, differ, run⟩ | ⟨fresh, -⟩ :=
    b.add_cases name d
  · rw [run, only here named]
  · rw [run, only here named]
    cases noted : b.fault with
    | some first => rw [report_of_fault noted]
    | none =>
      -- The row would have to be of another structure than it has.
      obtain ⟨e', here', -, same⟩ := holds.row noted
      rw [← only here named, here] at here'
      cases here'
      exact absurd same differ
  · have named := holds.named
    rw [Schema.name, List.getElem?_eq_getElem holds.known] at named
    exact absurd named (fresh _ (List.getElem_mem holds.known))

end Builder

namespace Model

open Builder

variable {m p q : Model} {ms : List Model} {b b' : Builder} {log : List (Request × ShapeId)}
  {id : ShapeId}

/-- The row of a model depends on the places of its parts only. -/
theorem declaration_congr {place place' : Model → ShapeId}
    (same : ∀ p ∈ m.parts, place p = place' p) : m.declaration place = m.declaration place' := by
  cases m with
  | record name fields =>
    rw [declaration, declaration]
    refine congrArg Declaration.container (List.map_congr_left fun item mem => ?_)
    exact congrArg (Field.mk item.1 · item.2.2) (same item.2.1 (List.mem_map_of_mem mem))
  | choice name nullable variants =>
    exact congrArg (Declaration.union · nullable) (List.map_congr_left same)
  | bool | uint | uint256 | bytes => rfl
  | _ => rw [declaration, declaration, same _ List.mem_cons_self]

theorem mem_submodels_of_part (part : p ∈ m.parts) (inside : q ∈ p.submodels) :
    q ∈ m.submodels := by
  rw [submodels_eq m]
  exact List.mem_append_left _ (List.mem_flatMap.mpr ⟨p, part, inside⟩)

/-- What is within a model within a model is within it. -/
theorem mem_submodels_trans (inside : p ∈ m.submodels) (within : q ∈ p.submodels) :
    q ∈ m.submodels := by
  induction m using induct_parts with
  | step m ih =>
    rw [submodels_eq m] at inside
    rcases List.mem_append.mp inside with deeper | itself
    · obtain ⟨r, part, there⟩ := List.mem_flatMap.mp deeper
      exact mem_submodels_of_part part (ih r part there)
    · cases List.mem_singleton.mp itself
      exact within

/-! ### Settled models -/

/-- Each model within a model has a row of its name, over the places of its parts. -/
def Settled (m : Model) (b : Builder) : Prop :=
  ∀ p ∈ m.submodels, ∃ id, b.Holds p.shapeName (p.declaration (placeIn b.schema)) id

namespace Settled

theorem of_mem (settled : m.Settled b) (inside : p ∈ m.submodels) : p.Settled b :=
  fun q within => settled q (mem_submodels_trans inside within)

theorem of_part (settled : m.Settled b) (part : p ∈ m.parts) : p.Settled b :=
  settled.of_mem (mem_submodels_of_part part (mem_submodels_self p))

/-- The place of a settled model has its name. -/
theorem holds (wf : b.schema.WellFormed) (settled : m.Settled b) :
    b.Holds m.shapeName (m.declaration (placeIn b.schema)) (m.placeIn b.schema) := by
  obtain ⟨id, holds⟩ := settled m (mem_submodels_self m)
  rw [placeIn_eq wf holds.known holds.named]
  exact holds

/-- A settled model stays where it is. -/
theorem placeIn_eq_of_grows (wf : b.schema.WellFormed) (settled : m.Settled b) (grows : b.Grows b')
    (wf' : b'.schema.WellFormed) : m.placeIn b.schema = m.placeIn b'.schema := by
  have holds := settled.holds wf
  refine (placeIn_eq wf' (Nat.lt_of_lt_of_le holds.known grows.size_le) ?_).symm
  rw [Schema.name_of_longer grows.rows holds.known, holds.named]

/-- The row of a model whose parts are settled is the same later on. -/
theorem declaration_eq (wf : b.schema.WellFormed) (parts : ∀ p ∈ m.parts, p.Settled b)
    (grows : b.Grows b') (wf' : b'.schema.WellFormed) :
    m.declaration (placeIn b.schema) = m.declaration (placeIn b'.schema) :=
  declaration_congr fun p part => (parts p part).placeIn_eq_of_grows wf grows wf'

/-- What is settled is settled at any later time. -/
theorem mono (wf : b.schema.WellFormed) (settled : m.Settled b) (grows : b.Grows b')
    (wf' : b'.schema.WellFormed) : m.Settled b' := by
  intro p inside
  have parts : ∀ q ∈ p.parts, q.Settled b := fun q part => (settled.of_mem inside).of_part part
  obtain ⟨id, holds⟩ := settled p inside
  refine ⟨id, Nat.lt_of_lt_of_le holds.known grows.size_le, ?_, fun none => ?_⟩
  · rw [Schema.name_of_longer grows.rows holds.known, holds.named]
  · rw [← declaration_eq wf parts grows wf']
    exact (holds.row (grows.sound none)).mono grows.rows

end Settled

/-- Registering models only adds to a builder. -/
theorem grows_registered (wf : b.schema.WellFormed) (ms : List Model) :
    b.Grows (registered ms b) ∧ (registered ms b).schema.WellFormed := by
  induction ms generalizing b with
  | nil => exact ⟨.refl b, wf⟩
  | cons m ms ih =>
    have first := declared b wf m
    obtain ⟨grows, wf'⟩ := ih first.wellFormed
    exact ⟨first.grows.trans grows, wf'⟩

theorem registered_eq_self (each : ∀ m ∈ ms, (m.declare b).2 = b) : registered ms b = b := by
  induction ms with
  | nil => rfl
  | cons m ms ih =>
    rw [registered_cons, each m List.mem_cons_self]
    exact ih fun m mem => each m (List.mem_cons_of_mem _ mem)

theorem settled_registered (wf : b.schema.WellFormed)
    (each : ∀ m ∈ ms, ∀ {b : Builder}, b.schema.WellFormed → m.Settled (m.declare b).2) :
    ∀ m ∈ ms, m.Settled (registered ms b) := by
  induction ms generalizing b with
  | nil => nofun
  | cons m ms ih =>
    have first := (declared b wf m).wellFormed
    obtain ⟨grows, wf'⟩ := grows_registered first ms
    refine List.forall_mem_cons.mpr ⟨?_, ?_⟩
    · exact (each m List.mem_cons_self wf).mono first grows wf'
    · exact ih first fun m mem => each m (List.mem_cons_of_mem _ mem)

/-- The row of a model over settled parts settles it. -/
theorem settled_add (wf : b.schema.WellFormed) (parts : ∀ p ∈ m.parts, p.Settled b) :
    m.Settled (b.add m.shapeName (m.declaration (placeIn b.schema))).2 := by
  have placed := @places_add b m.shapeName (m.declaration (placeIn b.schema)) wf <| by
    rw [references_declaration]
    exact List.forall_mem_map.mpr fun p part => ((parts p part).holds wf).known
  intro p inside
  rw [submodels_eq] at inside
  rcases List.mem_append.mp inside with deeper | itself
  · obtain ⟨q, part, within⟩ := List.mem_flatMap.mp deeper
    exact (parts q part).mono wf placed.grows placed.wellFormed p within
  · cases List.mem_singleton.mp itself
    refine ⟨_, placed.known, placed.named, fun none => ?_⟩
    rw [← Settled.declaration_eq wf parts placed.grows placed.wellFormed]
    exact placed.meant none

/-- A declared model is settled. -/
theorem settled_declare (wf : b.schema.WellFormed) (m : Model) : m.Settled (m.declare b).2 := by
  induction m using induct_parts generalizing b with
  | step m ih =>
    have parts := settled_registered wf fun p part _ wf => ih p part wf
    rw [declare_eq wf]
    exact settled_add (grows_registered wf m.parts).2 parts

/-- Declaring a settled model gives its place and changes nothing. -/
theorem declare_of_settled (wf : b.schema.WellFormed) (settled : m.Settled b) :
    m.declare b = (m.placeIn b.schema, b) := by
  induction m using induct_parts with
  | step m ih =>
    have same : registered m.parts b = b :=
      registered_eq_self fun p part => congrArg Prod.snd (ih p part (settled.of_part part))
    rw [declare_eq wf, same, add_of_holds wf (settled.holds wf)]

/-- A model is settled at any time after it was declared, and its place has its name. -/
theorem settled_of_reached (reached : Reached log b) (called : (.register m, id) ∈ log) :
    m.Settled b ∧ b.schema.name id = m.shapeName := by
  induction reached with
  | start => cases called
  | @call log b q reached known ih =>
    have wf := reached.wellFormed
    rcases List.mem_append.mp called with before | last
    · obtain ⟨name, placed⟩ := Request.placed wf q known
      obtain ⟨settled, named⟩ := ih before
      refine ⟨settled.mono wf placed.grows placed.wellFormed, ?_⟩
      rw [Schema.name_of_longer placed.grows.rows (reached.known _ before).1, named]
    · cases List.mem_singleton.mp last
      exact ⟨settled_declare wf m, (declared b wf m).named⟩

end Model

namespace Codec

open Builder

variable {b : Builder} {log : List (Request × ShapeId)} {m : Model} {id : ShapeId}

/-- A model that a builder was asked for answers to its name at any later time: the place that was
given out has the name, every model within it has a row of its own, and declaring it again gives the
same place and leaves the builder as it is.  If the table can be finished, the place is declared as
the model, and every codec over the table finds it by the name. -/
theorem shapeOf_of_reached (reached : Reached log b) (called : (.register m, id) ∈ log) :
    b.schema.name id = m.shapeName ∧
      (∀ p ∈ m.submodels, ∃ place, b.schema.find? p.shapeName = some place) ∧
      m.declare b = (id, b) ∧
      ∀ s, b.build = .ok s → m.DeclaredIn s id ∧
        ∀ c : Codec, c.catalog.schema = s → (shapeOf m).run c = (.ok id, c) := by
  have wf := reached.wellFormed
  have known : id < b.schema.size := (reached.known _ called).1
  obtain ⟨settled, named⟩ := Model.settled_of_reached reached called
  refine ⟨named, fun p inside => ?_, ?_, fun s built => ?_⟩
  · obtain ⟨place, holds⟩ := settled p inside
    exact ⟨place, holds.named ▸ wf.find?_name holds.known⟩
  · rw [Model.declare_of_settled wf settled, Model.placeIn_eq wf known named]
  · refine ⟨(reached.declaredIn built called).2, fun c same => ?_⟩
    obtain ⟨-, rfl⟩ := build_eq_ok.mp built
    have found : b.schema.find? m.shapeName = some id := named ▸ wf.find?_name known
    change (c.catalog.schema.require m.shapeName, c) = _
    rw [same, Schema.require, found]

/-- A table of two numbers and more, named after what it is of, where the numbers were declared
before and another shape is declared after it. -/
theorem shapeOf_of_reached_table :
    let word : Model := .uint .eight
    let table : Model := .record (ShapeName.applied "Table" [word.shapeName, "2"])
      (.ofList [("flag", .bool), ("rows", .vector word 2), ("rest", .option (.list word))])
    let rows : List Entry := [⟨"uint64", .basic (.uint 8)⟩, ⟨"bool", .basic .bool⟩,
      ⟨"Vector[uint64,2]", .sequence 0 (.vector (.literal 2))⟩,
      ⟨"List[uint64]", .sequence 0 .unbounded⟩, ⟨"Union[None,List[uint64]]", .union [3] true⟩,
      ⟨"Table[uint64,2]",
        .container [⟨"flag", 1, none⟩, ⟨"rows", 2, none⟩, ⟨"rest", 4, none⟩]⟩,
      ⟨"Numbers", .subclass 3 .ok⟩]
    let b : Builder := { schema := { entries := rows } }
    let c : Codec := { catalog := { schema := { entries := rows } } }
    Reached [(.basic (.uint 8), 0), (.register table, 5), (.subclass "Numbers" 3 .ok, 6)] b ∧
      table.declare b = (5, b) ∧ (shapeOf table).run c = (.ok 5, c) := by
  intro word table rows b c
  have reached : Reached
      [(.basic (.uint 8), 0), (.register table, 5), (.subclass "Numbers" 3 .ok, 6)] b :=
    .call (.subclass "Numbers" 3 .ok)
      (.call (.register table) (.call (.basic (.uint 8)) .start nofun) nofun) (by decide)
  have called : (Request.register table, 5) ∈
      [(.basic (.uint 8), 0), (.register table, 5), (.subclass "Numbers" 3 .ok, 6)] :=
    List.mem_cons_of_mem _ List.mem_cons_self
  obtain ⟨-, -, again, finished⟩ := shapeOf_of_reached reached called
  exact ⟨reached, again, (finished b.schema rfl).2 c rfl⟩

end Codec

end SimpleSerialize
