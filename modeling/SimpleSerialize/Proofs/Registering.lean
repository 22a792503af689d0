/-
Registering models, in any order.

A model is declared after its parts, so that registering models comes to asking for the rows of all
models within them, one by one.  A builder that was asked for some rows has one for each of their
names, and has met an inconsistency exactly if two of them clash, in whatever order they came.  Main
statements:

* `Model.declare_eq`: a model is declared over the places of its parts;
* `Builder.Asked.add`: what one more row does to a builder that was asked for some;
* `Model.asked_registered`: what a builder was asked for that some models were registered with;
* `Model.exists_tableOf`: models make a table exactly if nothing in them clashes.
-/
import SimpleSerialize.Proofs.Sketch

namespace SimpleSerialize

namespace Model

/-! ### Declaring a model over its parts -/

open Builder

variable {ms : List Model} {m : Model} {b b' : Builder} {s : Schema} {id : ShapeId}

/-- The place of the name of a model. -/
def placeIn (s : Schema) (m : Model) : ShapeId := (s.find? m.shapeName).getD 0

theorem placeIn_eq (wf : s.WellFormed) (known : id < s.size) (named : s.name id = m.shapeName) :
    m.placeIn s = id := by
  rw [placeIn, ← named, wf.find?_name known, Option.getD_some]

/-- What was given out for a model is its place from then on. -/
theorem placeIn_of_grows {meaning : Schema → ShapeId → Prop} {outcome : ShapeId × Builder}
    (placed : b.Places m.shapeName meaning outcome) (grows : outcome.2.Grows b')
    (wf : b'.schema.WellFormed) : m.placeIn b'.schema = outcome.1 := by
  refine placeIn_eq wf (placed.known_of_grows grows) ?_
  rw [Schema.name_of_longer grows.rows placed.known, placed.named]

/-- A builder that some models are registered with, one after the other. -/
def registered (ms : List Model) (b : Builder) : Builder :=
  ms.foldl (fun b m => (m.declare.run b).2) b

theorem registered_cons (m : Model) (ms : List Model) (b : Builder) :
    registered (m :: ms) b = registered ms (m.declare b).2 := rfl

/-- What is declared over a model is declared over its place. -/
theorem add_over (wf : b.schema.WellFormed) (inner : Model) (nameOver : String → String)
    (d : ShapeId → Declaration) :
    (inner.declare b).2.add (nameOver ((inner.declare b).2.schema.name (inner.declare b).1))
        (d (inner.declare b).1) =
      (inner.declare b).2.add (nameOver inner.shapeName)
        (d (inner.placeIn (inner.declare b).2.schema)) := by
  have placed := declared b wf inner
  rw [placed.named, placeIn_of_grows placed (.refl _) placed.wellFormed]

theorem declareFields_eq {b : Builder} (wf : b.schema.WellFormed) (fields : ModelFields) :
    let after := registered (fields.items.map (·.2.1)) b
    declareFields fields b =
      (fields.items.map fun (name, m, hint) => ⟨name, m.placeIn after.schema, hint⟩, after) := by
  intro after
  cases fields with
  | nil => rfl
  | cons name model hint rest =>
    have first := declared b wf model
    have others := declareFields_eq first.wellFormed rest
    obtain ⟨kept, -⟩ := declaredFields _ first.wellFormed rest
    rw [others] at kept
    have run : declareFields (.cons name model hint rest) b =
        (⟨name, (model.declare b).1, hint⟩ :: (declareFields rest (model.declare b).2).1,
          (declareFields rest (model.declare b).2).2) := rfl
    rw [run, others, ← placeIn_of_grows first kept.grows kept.wellFormed]
    rfl

theorem declareVariants_eq {b : Builder} (wf : b.schema.WellFormed) (variants : ModelVariants) :
    let after := registered variants.items b
    declareVariants variants b = (variants.items.map (placeIn after.schema), after) := by
  intro after
  cases variants with
  | nil => rfl
  | cons model rest =>
    have first := declared b wf model
    have others := declareVariants_eq first.wellFormed rest
    obtain ⟨kept, -⟩ := declaredVariants _ first.wellFormed rest
    rw [others] at kept
    have run : declareVariants (.cons model rest) b =
        ((model.declare b).1 :: (declareVariants rest (model.declare b).2).1,
          (declareVariants rest (model.declare b).2).2) := rfl
    rw [run, others, ← placeIn_of_grows first kept.grows kept.wellFormed]
    rfl

/-- A model is declared once its parts are, over their places. -/
theorem declare_eq (wf : b.schema.WellFormed) (m : Model) :
    let after := registered m.parts b
    m.declare b = after.add m.shapeName (m.declaration (placeIn after.schema)) := by
  intro after
  cases m with
  | bool => rfl
  | uint size => cases size <;> rfl
  | uint256 => rfl
  | bytes length => rfl
  | list element => exact add_over wf element (ShapeName.list · none) (.sequence · .unbounded)
  | option body =>
    refine (Declare.run_union none [(body.declare b).1] true).trans ?_
    exact add_over wf body (ShapeName.union true [·]) (.union [·] true)
  | vector element length =>
    exact add_over wf element (ShapeName.vector · (.literal length)) (.sequence · _)
  | boundedList element limit =>
    exact add_over wf element (ShapeName.list · (some (.literal limit))) (.sequence · _)
  | sizedVector element length =>
    exact add_over wf element (ShapeName.vector · (.named length)) (.sequence · _)
  | sizedList element limit =>
    exact add_over wf element (ShapeName.list · (some (.named limit))) (.sequence · _)
  | newtype name inner check => exact add_over wf inner (fun _ => name) (.subclass · check)
  | record name fields =>
    have run : (Model.record name fields).declare b =
        (declareFields fields b).2.add name (.container (declareFields fields b).1) := rfl
    rw [run, declareFields_eq wf]
    rfl
  | choice name nullable variants =>
    refine (Declare.run_union (some name) (declareVariants variants b).1 nullable).trans ?_
    rw [declareVariants_eq wf]
    rfl

end Model

/-! ### Builders that were asked for some models -/

namespace Builder

open Model

variable {b b' : Builder} {ms ms' : List Model} {m : Model}

/-- A builder was asked for the rows of some models: its table has one row for each of their names,
which is that of one of them, and it has met an inconsistency exactly if two of them clash. -/
structure Asked (b : Builder) (ms : List Model) : Prop where
  wellFormed : b.schema.WellFormed
  origin : ∀ e ∈ b.schema.entries, ∃ m ∈ ms, e.sketch b.schema = m.sketch ∧
    e.declaration.check = m.check
  placed : ∀ m ∈ ms, ∃ id < b.schema.size, b.schema.name id = m.shapeName
  clash : ∀ e, b.fault = some e →
    ∃ m ∈ ms, ∃ m' ∈ ms, m.Clashes m' ∧ e = .conflictingDeclaration m.shapeName
  sound : b.fault = none → ∀ m ∈ ms, ∀ m' ∈ ms, ¬ m.Clashes m'

namespace Asked

/-- A model whose parts were asked for has the row that its sketch says. -/
theorem sketch_eq (asked : b.Asked ms) (parts : ∀ p ∈ m.parts, p ∈ ms) :
    let d := m.declaration (placeIn b.schema)
    (∀ r ∈ d.references, r < b.schema.size) ∧ Entry.sketch b.schema ⟨m.shapeName, d⟩ = m.sketch := by
  intro d
  have each : ∀ p ∈ m.parts, p.placeIn b.schema < b.schema.size ∧
      b.schema.name (p.placeIn b.schema) = p.shapeName := by
    intro p mem
    obtain ⟨id, known, named⟩ := asked.placed p (parts p mem)
    rw [placeIn_eq asked.wellFormed known named]
    exact ⟨known, named⟩
  constructor
  · rw [references_declaration]
    exact List.forall_mem_map.mpr fun p mem => (each p mem).1
  · rw [Entry.sketch, sketch, references_declaration, frame_declaration, List.map_map]
    exact congrArg _ (List.map_congr_left fun p mem => (each p mem).2)

/-- What a builder was asked for before, it was asked for among more. -/
theorem origin_append (asked : b.Asked ms) (more : List Model) :
    ∀ e ∈ b.schema.entries, ∃ m ∈ ms ++ more, e.sketch b.schema = m.sketch ∧
      e.declaration.check = m.check := by
  intro e mem
  obtain ⟨m, hm, same⟩ := asked.origin e mem
  exact ⟨m, List.mem_append_left _ hm, same⟩

theorem clash_append (asked : b.Asked ms) (more : List Model) :
    ∀ e, b.fault = some e → ∃ m ∈ ms ++ more, ∃ m' ∈ ms ++ more, m.Clashes m' ∧
      e = .conflictingDeclaration m.shapeName := by
  intro e noted
  obtain ⟨m, hm, m', hm', found⟩ := asked.clash e noted
  exact ⟨m, List.mem_append_left _ hm, m', List.mem_append_left _ hm', found⟩

/-- A row of the name of a model is its place. -/
theorem placed_append {e : Entry} {id : ShapeId} (asked : b.Asked ms)
    (here : b.schema.entries[id]? = some e) (named : e.name = m.shapeName) :
    ∀ x ∈ ms ++ [m], ∃ id < b.schema.size, b.schema.name id = x.shapeName := by
  refine List.forall_mem_append.mpr ⟨asked.placed, List.forall_mem_singleton.mpr ?_⟩
  obtain ⟨known, name⟩ := Schema.place_of_entry here
  exact ⟨id, known, name.trans named⟩

section Row

-- The row that one more model asks for, and a row of the table that may have its name.
variable {d : Declaration} {e : Entry} {id : ShapeId} (asked : b.Asked ms)
  (known : ∀ r ∈ d.references, r < b.schema.size)
  (sketched : Entry.sketch b.schema ⟨m.shapeName, d⟩ = m.sketch)

include asked known sketched

/-- A row of the name of a model has its structure if it says what the model does. -/
theorem sketch_eq_iff (here : b.schema.entries[id]? = some e) (named : e.name = m.shapeName) :
    e.sketch b.schema = m.sketch ↔ e.declaration.sameStructure d = true := by
  have wf := asked.wellFormed
  rw [← sketched, wf.sketch_eq_iff (wf.known_of_mem (List.mem_of_getElem? here)) known]
  exact and_iff_right named

/-- The row is there. -/
theorem add_again (here : b.schema.entries[id]? = some e) (named : e.name = m.shapeName)
    (same : e.declaration.sameStructure d = true) : b.Asked (ms ++ [m]) := by
  refine ⟨asked.wellFormed, asked.origin_append _, asked.placed_append here named,
    asked.clash_append _, fun none => ?_⟩
  -- It was asked for by another model, which says the same.
  obtain ⟨x, hx, said, -⟩ := asked.origin e (List.mem_of_getElem? here)
  have as := (asked.sketch_eq_iff known sketched here named).mpr same
  have each : ∀ y ∈ ms ++ [m], ∃ z ∈ ms, z.sketch = y.sketch :=
    List.forall_mem_append.mpr ⟨fun y hy => ⟨y, hy, rfl⟩,
      List.forall_mem_singleton.mpr ⟨x, hx, said.symm.trans as⟩⟩
  intro y hy y' hy' clashes
  obtain ⟨z, hz, as⟩ := each y hy
  obtain ⟨z', hz', as'⟩ := each y' hy'
  exact asked.sound none z hz z' hz' ((clashes_congr as as').mpr clashes)

/-- Another row is there under the name. -/
theorem add_other (here : b.schema.entries[id]? = some e) (named : e.name = m.shapeName)
    (differ : e.declaration.sameStructure d ≠ true) :
    (b.report (.conflictingDeclaration m.shapeName)).Asked (ms ++ [m]) := by
  refine ⟨asked.wellFormed, asked.origin_append _, asked.placed_append here named,
    fun e' noted => ?_, fun none => absurd none (fault_report b _)⟩
  rw [report] at noted
  cases before : b.fault with
  | some _ =>
    rw [before] at noted
    cases noted
    exact asked.clash_append _ e' before
  | none =>
    rw [before] at noted
    cases noted
    obtain ⟨x, hx, said, -⟩ := asked.origin e (List.mem_of_getElem? here)
    refine ⟨m, List.mem_append_right _ List.mem_cons_self, x, List.mem_append_left _ hx,
      ⟨?_, fun same => differ ?_⟩, rfl⟩
    · rw [← named]
      exact congrArg Sketch.name said
    · exact (asked.sketch_eq_iff known sketched here named).mp (said.trans same.symm)

/-- The name is new. -/
theorem add_fresh (check : d.check = m.check) (fresh : ∀ e ∈ b.schema.entries, e.name ≠ m.shapeName)
    (wellFormed : (b.schema.push ⟨m.shapeName, d⟩).WellFormed) :
    Asked { b with schema := b.schema.push ⟨m.shapeName, d⟩ } (ms ++ [m]) := by
  have longer := b.schema.prefix_push ⟨m.shapeName, d⟩
  refine ⟨wellFormed, ?_, ?_, asked.clash_append _, fun none => ?_⟩
  · refine List.forall_mem_append.mpr ⟨fun e mem => ?_, List.forall_mem_singleton.mpr ?_⟩
    · rw [Schema.sketch_of_longer longer (asked.wellFormed.known_of_mem mem)]
      exact asked.origin_append _ e mem
    · refine ⟨m, List.mem_append_right _ List.mem_cons_self, ?_, check⟩
      rw [Schema.sketch_of_longer longer known, sketched]
  · refine List.forall_mem_append.mpr ⟨fun x hx => ?_, List.forall_mem_singleton.mpr ?_⟩
    · obtain ⟨id, inside, named⟩ := asked.placed x hx
      refine ⟨id, Nat.lt_of_lt_of_le inside longer.length_le, ?_⟩
      rw [Schema.name_of_longer longer inside, named]
    · exact ⟨_, Schema.place_of_entry (b.schema.getElem?_push _)⟩
  · -- No model of before is of the name.
    have apart : ∀ x ∈ ms, ¬ m.Clashes x := by
      rintro x hx ⟨same, -⟩
      obtain ⟨id, inside, named⟩ := asked.placed x hx
      rw [← same, Schema.name, List.getElem?_eq_getElem inside] at named
      exact fresh _ (List.getElem_mem inside) named
    refine List.forall_mem_append.mpr ⟨fun x hx => ?_, List.forall_mem_singleton.mpr ?_⟩
    · refine List.forall_mem_append.mpr ⟨asked.sound none x hx, List.forall_mem_singleton.mpr ?_⟩
      exact fun clashes => apart x hx clashes.symm
    · exact List.forall_mem_append.mpr
        ⟨apart, List.forall_mem_singleton.mpr fun clashes => clashes.2 rfl⟩

end Row

/-- One more row: that of a model whose parts were asked for. -/
theorem add (asked : b.Asked ms) (parts : ∀ p ∈ m.parts, p ∈ ms) :
    (b.add m.shapeName (m.declaration (placeIn b.schema))).2.Asked (ms ++ [m]) := by
  obtain ⟨known, sketched⟩ := asked.sketch_eq parts
  have wellFormed := @wellFormed_add b m.shapeName _ asked.wellFormed known
  obtain ⟨id, e, here, named, same, run⟩ | ⟨id, e, here, named, differ, run⟩ | ⟨fresh, run⟩ :=
    b.add_cases m.shapeName (m.declaration (placeIn b.schema))
  · rw [run]
    exact asked.add_again known sketched here named same
  · rw [run]
    exact asked.add_other known sketched here named differ
  · rw [run] at wellFormed ⊢
    exact asked.add_fresh known sketched check_declaration fresh wellFormed

end Asked

end Builder

namespace Model

open Builder

variable {ms : List Model} {m : Model} {b : Builder}

/-- The table of some models that are registered with a fresh builder, one after the other. -/
def tableOf (ms : List Model) : Except SchemaError Schema := Declare.build (ms.mapM declare)

theorem run_mapM_declare (ms : List Model) (b : Builder) :
    ((ms.mapM declare).run b).2 = registered ms b := by
  induction ms generalizing b with
  | nil => rfl
  | cons m ms ih =>
    rw [List.mapM_cons, registered_cons, ← ih]
    rfl

theorem tableOf_eq (ms : List Model) : tableOf ms = (registered ms {}).build := by
  rw [tableOf, Declare.build, run_mapM_declare]

/-- A builder that models are registered with has been asked for each of them. -/
theorem reached_registered {log : List (Request × ShapeId)} (reached : Reached log b) :
    ∃ log', Reached log' (registered ms b) ∧ log ⊆ log' ∧
      ∀ m ∈ ms, ∃ shape, (.register m, shape) ∈ log' := by
  induction ms generalizing b log with
  | nil => exact ⟨log, reached, List.Subset.refl log, nofun⟩
  | cons m ms ih =>
    obtain ⟨log', last, kept, each⟩ := ih (reached.call (.register m) nofun)
    have first := kept (List.mem_append_right log List.mem_cons_self)
    exact ⟨log', last, fun call mem => kept (List.mem_append_left _ mem),
      List.forall_mem_cons.mpr ⟨⟨_, first⟩, each⟩⟩

/-- Each of some models is in the table that is made of them. -/
theorem declaredIn_of_tableOf {s : Schema} (built : tableOf ms = .ok s) :
    s.WellFormed ∧ ∀ m ∈ ms, ∃ shape, m.DeclaredIn s shape := by
  rw [tableOf_eq] at built
  obtain ⟨-, rfl⟩ := build_eq_ok.mp built
  obtain ⟨log, reached, -, each⟩ := @reached_registered ms {} [] .start
  refine ⟨reached.wellFormed, fun m mem => ?_⟩
  obtain ⟨shape, call⟩ := each m mem
  exact ⟨shape, (reached.declaredIn built call).2⟩

end Model

end SimpleSerialize
