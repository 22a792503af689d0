/-
Which shapes resolve.

With an accessor for everything that can be declared, and no hints, resolution of a shape can only
fail for what is wrong with the lengths and the sizes of the shapes that it reaches.  A node is put
together from parts whose sizes are right; its own size is then right, too, or it is refused for
what its declaration alone tells.  Main statements:

* `Catalog.exists_outline`: the standard accessors give every shape of a table an outline;
* `Catalog.settled_finish`: a node whose parts are right is right, or refused for a good reason;
* `Codec.resolves_iff_resolvable`: which shapes resolve, and what the sizes of their nodes are.
-/
import SimpleSerialize.Proofs.Cache
import SimpleSerialize.Proofs.Declaring
import SimpleSerialize.Proofs.ExactSize
import SimpleSerialize.Proofs.StandIn

namespace SimpleSerialize

namespace Catalog

open Schema

variable {c : Catalog} {id last : ShapeId} {d : Declaration} {links : List (String × Rebuild)}
  {field hint : Option String} {f : Format} {outline : Outline} {ps : List Format}

/-! ### Outlines -/

/-- A basic shape has an accessor among the standard ones. -/
theorem exists_outline_basic (standard : c.registry = .standard) {kind : BasicKind}
    (declared : c.schema.declaration? id = some (.basic kind)) :
    ∃ outline, c.outline (c.schema.descriptor id) = .ok outline := by
  obtain ⟨structural, wrappers⟩ := structural_descriptor declared
  obtain ⟨a, found⟩ :
      ∃ a, c.registry.basicAccessor? c.schema (c.schema.descriptor id) = some a := by
    refine Option.isSome_iff_exists.mp (List.find?_isSome.mpr ⟨kind.form.accessor, ?_, ?_⟩)
    · rw [standard]
      cases kind <;> simp [BasicKind.form, BasicForm.accessor, Registry.standard]
    · rw [Registry.eligible_descriptor]
      cases kind <;> simp [BasicKind.form, BasicForm.accessor, ShapeAccessor.supports, declared]
  have access : c.registry.resolve c.schema (c.schema.descriptor id) = .ok (.basic ⟨a, []⟩) := by
    rw [Registry.resolve, structural, wrappers, Registry.direct?, found]
    rfl
  rw [Catalog.outline, access]
  exact ⟨_, rfl⟩

theorem descriptor_inField (id : ShapeId) :
    (c.schema.descriptor id).inField field = c.schema.use id field none := by
  rw [use, descriptor]
  split <;> rfl

/-- The standard accessors give every shape of a table an outline. -/
theorem exists_outline (wf : c.schema.WellFormed) (standard : c.registry = .standard)
    (travels : c.schema.TravelsAs id links last) (field : Option String) :
    ∃ outline, c.outline (c.schema.use id field none) = .ok outline := by
  obtain ⟨d, declared, plain⟩ := travels.declared
  obtain ⟨outline, found⟩ : ∃ outline, c.outline (c.schema.descriptor last) = .ok outline := by
    cases d with
    | basic kind => exact exists_outline_basic standard declared
    | sequence element size =>
      have known : .sequence ∈ c.registry.list := by rw [standard]; decide
      obtain ⟨a, ha⟩ := exists_listAccessor declared known
      exact ⟨_, (outline_sequence_eq_ok wf declared).mpr ⟨a, ha, rfl⟩⟩
    | union variants nullable =>
      have head : c.registry.union.head? = some .tagged := by rw [standard]; rfl
      exact ⟨_, (outline_union_eq_ok wf declared).mpr ⟨_, head, rfl⟩⟩
    | container fields =>
      have head : c.registry.container.head? = some .fields := by rw [standard]; rfl
      exact ⟨_, (outline_container_eq_ok wf declared).mpr ⟨_, head, rfl⟩⟩
    | subclass target rebuild => exact absurd rfl (plain target rebuild)
  have inField : c.outline ((c.schema.descriptor last).inField field) = .ok outline :=
    outline_inField c.registry.blind found
  rw [descriptor_inField] at inField
  exact ⟨_, outline_through wf travels inField⟩

/-- Without hints, the parts of a node are uses of the shapes that its declaration refers to. -/
theorem Fits.parts (fits : c.Fits d outline)
    (unhinted : ∀ fields, d = .container fields → ∀ field ∈ fields, field.hint = none) :
    List.Forall₂ (fun r part => ∃ field, part = c.schema.use r field none) d.references
      outline.parts := by
  have plain (r : ShapeId) : ∃ field, c.schema.descriptor r = c.schema.use r field none :=
    ⟨none, use_none.symm⟩
  cases fits with
  | basic => exact .nil
  | sequence element size a => exact .cons (plain element) .nil
  | union variants nullable a =>
    exact List.forall₂_map_right_iff.mpr (List.forall₂_same.mpr fun r _ => plain r)
  | container fields a =>
    refine List.forall₂_map_left_iff.mpr (List.forall₂_map_right_iff.mpr
      (List.forall₂_same.mpr fun field mem => ⟨some field.name, ?_⟩))
    rw [fieldDescriptor, unhinted fields rfl field mem]
    rfl

/-! ### Nodes -/

/-- The sizes in a format are those of the shapes that its nodes are for. -/
def Sizes (c : Catalog) (f : Format) : Prop :=
  Everywhere Format.parts (fun g => c.Measures g.descriptor.shape g.fixedSize) f

/-- The format that a shape has to have, or a failure where something that it reaches is at fault. -/
def Settled (c : Catalog) (id : ShapeId) : Except SchemaError Format → Prop
  | .ok f => c.Resolvable id ∧ c.Sizes f ∧ f.descriptor.shape = id
  | .error e => ¬c.Resolvable id ∧ ∀ shape field hint, e ≠ .unsupported shape field hint

/-- What some parts measure together. -/
theorem measures_totalSize {fields : List Field}
    (each : List.Forall₂ (fun field p => c.Measures field.shape p.fixedSize) fields ps)
    (declared : c.schema.declaration? id = some (.container fields)) :
    c.Measures id (Format.totalSize ps) := by
  have total : (∀ n, Format.totalSize ps = some n → ∃ sizes,
        List.Forall₂ (fun field m => c.ExactSize field.shape m) fields sizes ∧ n = sizes.sum) ∧
      (Format.totalSize ps = none → ∃ field ∈ fields, c.schema.Varies field.shape) := by
    clear declared
    induction each with
    | nil =>
      refine ⟨fun n same => ⟨[], .nil, ?_⟩, fun none => ?_⟩
      · cases same
        rfl
      · cases none
    | @cons field p fields ps head _ ih =>
      rw [Format.totalSize]
      cases first : p.fixedSize with
      | none =>
        rw [first] at head
        refine ⟨fun n same => ?_, fun _ => ⟨field, List.mem_cons_self, head⟩⟩
        cases same
      | some a =>
        rw [first] at head
        cases rest : Format.totalSize ps with
        | none =>
          obtain ⟨other, mem, varies⟩ := ih.2 rest
          refine ⟨fun n same => ?_, fun _ => ⟨other, List.mem_cons_of_mem _ mem, varies⟩⟩
          cases same
        | some b =>
          obtain ⟨sizes, every, rfl⟩ := ih.1 b rest
          refine ⟨fun n same => ⟨a :: sizes, .cons head every, ?_⟩, fun none => ?_⟩
          · cases same
            exact List.sum_cons.symm
          · cases none
  cases same : Format.totalSize ps with
  | some n => exact (exactSize_iff declared).mpr (total.1 n same)
  | none =>
    obtain ⟨field, mem, varies⟩ := total.2 same
    exact .container declared mem varies

theorem extent_eq (shape : String) (length : Extent) :
    (∃ n, c.extent shape length = .ok n ∧ c.count? length = some n) ∨
      ∃ name, length = .named name ∧ c.sizes name = none ∧
        c.extent shape length = .error (.unboundVariable shape name) := by
  cases length with
  | literal n => exact .inl ⟨n, rfl, rfl⟩
  | named name =>
    cases known : c.sizes name with
    | some n =>
      refine .inl ⟨n, ?_, known⟩
      rw [extent, SizeVars.require, known]
    | none =>
      refine .inr ⟨name, rfl, known, ?_⟩
      rw [extent, SizeVars.require, known]

/-- The number of elements that a sequence is given, or a failure that its declaration is at fault
for. -/
theorem regime_settled {element : ShapeId} {size : SizeRule} (shape : String)
    (declared : c.schema.declaration? id = some (.sequence element size)) :
    match c.regime shape size with
    | .ok (.vector n) => n ≠ 0 ∧ ∃ length, size = .vector length ∧ c.count? length = some n
    | .ok (.list _) => (∀ length, size ≠ .vector length) ∧
        ∀ name, size.extent? = some (.named name) → ∃ n, c.sizes name = some n
    | .error e => ¬c.Admissible id ∧ ∀ shape field hint, e ≠ .unsupported shape field hint := by
  have unknown {name : String} (named : size.extent? = some (.named name))
      (none : c.sizes name = none) : ¬c.Admissible id := by
    intro admissible
    obtain ⟨n, some⟩ := admissible.known element size name declared named
    cases none.symm.trans some
  cases size with
  | vector length =>
    rcases c.extent_eq shape length with ⟨n, found, count⟩ | ⟨name, rfl, none, failed⟩
    · simp only [regime, found, ok_bind]
      by_cases zero : n = 0
      · rw [if_pos zero]
        exact ⟨fun admissible => admissible.nonempty element length declared (zero ▸ count), by simp⟩
      · rw [if_neg zero]
        exact ⟨zero, length, rfl, count⟩
    · simp only [regime, failed]
      exact ⟨unknown rfl none, by simp⟩
  | bounded limit =>
    rcases c.extent_eq shape limit with ⟨n, found, count⟩ | ⟨name, rfl, none, failed⟩
    · simp only [regime, found, ok_bind]
      refine ⟨by simp, fun name named => ?_⟩
      cases named
      exact ⟨n, count⟩
    · simp only [regime, failed]
      exact ⟨unknown rfl none, by simp⟩
  | unbounded => exact ⟨by simp, by simp [SizeRule.extent?]⟩

/-- A node of the right size is right, unless that size is too large. -/
theorem settled_check (travels : c.schema.TravelsAs id links last)
    (declared : c.schema.declaration? last = some d) (same : f.descriptor.shape = id)
    (measures : c.Measures last f.fixedSize) (parts : ∀ p ∈ f.parts, c.Sizes p)
    (below : ∀ r ∈ d.references, c.Resolvable r)
    (admissible : (∀ n, c.ExactSize last n → n < 2 ^ 32) → c.Admissible last) :
    c.Settled id (checkFixedSize f) := by
  have resolvable (small : ∀ n, c.ExactSize last n → n < 2 ^ 32) : c.Resolvable id :=
    (resolvable_of_travelsAs travels).mpr ((resolvable_iff declared).mpr ⟨admissible small, below⟩)
  have sizes : c.Sizes f := .node (same.symm ▸ measures.of_travelsAs travels) parts
  rw [checkFixedSize]
  cases size : f.fixedSize with
  | none =>
    refine ⟨resolvable fun n sized => ?_, sizes, same⟩
    cases size.symm.trans (measures.eq_some_iff.mpr sized)
  | some n =>
    simp only
    -- The size that the check looks at is the exact size of the shape.
    split
    · rename_i small
      refine ⟨resolvable fun m sized => ?_, sizes, same⟩
      cases size.symm.trans (measures.eq_some_iff.mpr sized)
      exact Nat.lt_of_le_of_lt small (by decide)
    · rename_i large
      refine ⟨fun resolvable => large ?_, by simp⟩
      have here := (resolvable_of_travelsAs travels).mp resolvable last (reaches_self last)
      exact Nat.le_of_lt_succ (here.small n (measures.eq_some_iff.mp size))

/-- Of a shape that is not a sequence, only the size can be at fault. -/
theorem admissible_of_small (declared : c.schema.declaration? id = some d)
    (other : ∀ element size, d ≠ .sequence element size)
    (small : ∀ n, c.ExactSize id n → n < 2 ^ 32) : c.Admissible id where
  known element size _ declared' :=
    absurd (Option.some.inj (declared.symm.trans declared')) (other element size)
  nonempty element _ declared' :=
    absurd (Option.some.inj (declared.symm.trans declared')) (other element _)
  small := small

/-- Of a sequence, the length that its declaration gives can be at fault, too. -/
theorem admissible_of_sequence {element : ShapeId} {size : SizeRule}
    (declared : c.schema.declaration? id = some (.sequence element size))
    (known : ∀ name, size.extent? = some (.named name) → ∃ n, c.sizes name = some n)
    (nonempty : ∀ length, size = .vector length → c.count? length ≠ some 0)
    (small : ∀ n, c.ExactSize id n → n < 2 ^ 32) : c.Admissible id where
  known element' size' name declared' named := by
    cases declared.symm.trans declared'
    exact known name named
  nonempty element' length declared' := by
    cases declared.symm.trans declared'
    exact nonempty length rfl
  small := small

/-- What as many elements as a vector has measure together. -/
theorem measures_vector {element : ShapeId} {length : Extent} {n : UInt64} {size : Option Nat}
    (declared : c.schema.declaration? id = some (.sequence element (.vector length)))
    (count : c.count? length = some n) (each : c.Measures element size) :
    c.Measures id (size.map (n.toNat * ·)) := by
  cases size with
  | none => exact .vector declared each
  | some m => exact .vector declared count each

theorem Settled.measures {p : Format} (settled : c.Settled id (.ok p)) :
    c.Measures id p.fixedSize := settled.2.2 ▸ settled.2.1.here

/-- A sequence of elements that are right. -/
theorem settled_sequence {element : ShapeId} {size : SizeRule} {p : Format}
    (travels : c.schema.TravelsAs id links last)
    (declared : c.schema.declaration? last = some (.sequence element size))
    (settled : c.Settled element (.ok p)) (a : Handler ListAccessor) (part : Descriptor) :
    c.Settled id (c.finish (c.schema.use id field hint) (.list a size part) [p]) := by
  have below : ∀ r ∈ (Declaration.sequence element size).references, c.Resolvable r :=
    List.forall_mem_singleton.mpr settled.1
  have sizes : ∀ q ∈ [p], c.Sizes q := List.forall_mem_singleton.mpr settled.2.1
  rw [finish]
  generalize c.schema.name (c.schema.use id field hint).shape = name
  have number := regime_settled name declared
  cases found : c.regime name size with
  | error e =>
    rw [found] at number
    refine ⟨fun resolvable => number.1 ?_, number.2⟩
    exact (resolvable_of_travelsAs travels).mp resolvable last (reaches_self last)
  | ok regime =>
    rw [found] at number
    have same : (Format.list ⟨name, c.schema.use id field hint⟩ a regime p).descriptor.shape = id :=
      shape_use
    cases regime with
    | vector n =>
      obtain ⟨positive, length, rfl, count⟩ := number
      have measures := measures_vector declared count settled.measures
      refine settled_check travels declared same measures sizes below
        (admissible_of_sequence declared (fun name named => ?_) fun length' same zero => ?_)
      · cases named
        exact ⟨n, count⟩
      · cases same
        cases count.symm.trans zero
        exact positive rfl
    | list limit =>
      obtain ⟨unlike, known⟩ := number
      exact settled_check travels declared same (.list declared unlike) sizes below
        (admissible_of_sequence declared known fun length bad => absurd bad (unlike length))

/-- A node whose parts are right is right, or refused for a reason that its declaration gives. -/
theorem settled_finish (travels : c.schema.TravelsAs id links last)
    (declared : c.schema.declaration? last = some d) (fits : c.Fits d outline)
    (each : List.Forall₂ (fun r p => c.Settled r (.ok p)) d.references ps) :
    c.Settled id (c.finish (c.schema.use id field hint) outline ps) := by
  have below : ∀ r ∈ d.references, c.Resolvable r := forall_left each fun _ _ settled => settled.1
  have sizes : ∀ p ∈ ps, c.Sizes p := forall_right each fun _ _ settled => settled.2.1
  have same : (c.schema.use id field hint).shape = id := shape_use
  cases fits with
  | @basic kind a form =>
    have size : a.base.size = kind.size := form ▸ kind.size_form
    have measures : c.Measures last (some a.base.size) := size ▸ .basic declared
    have small (head : Heading) : checkFixedSize (.basic head a : Format) = .ok (.basic head a) := by
      refine checkFixedSize_eq_ok.mpr ⟨rfl, fun n is => ?_⟩
      cases is
      rw [BasicForm.sized_eq, size]
      exact Nat.le_of_lt_succ kind.size_lt
    rw [finish, ← small]
    exact settled_check travels declared same measures (List.forall_mem_nil _) below
      (admissible_of_small declared (by simp))
  | sequence element size a =>
    cases each with
    | cons head rest =>
      cases rest
      exact settled_sequence travels declared head a (c.schema.descriptor element)
  | union variants nullable a =>
    exact @settled_check c id last _ links (.union ⟨_, c.schema.use id field hint⟩ a nullable ps)
      travels declared same (.union declared) sizes below (admissible_of_small declared (by simp))
  | container fields a =>
    have measures := measures_totalSize
      ((List.forall₂_map_left_iff.mp each).imp fun _ _ => Settled.measures) declared
    exact settled_check travels declared same measures sizes below
      (admissible_of_small declared (by simp))

/-! ### Shapes -/

/-- No field that a shape reaches carries a hint. -/
def Unhinted (c : Catalog) (id : ShapeId) : Prop :=
  ∀ other fields, c.schema.Reaches id other →
    c.schema.declaration? other = some (.container fields) → ∀ field ∈ fields, field.hint = none

/-- With the standard accessors and without hints, a shape resolves if it can. -/
theorem settled_format (wf : c.schema.WellFormed) (standard : c.registry = .standard)
    (known : id < c.schema.size) (unhinted : c.Unhinted id) (field : Option String) :
    c.Settled id (c.format (c.schema.use id field none)) := by
  induction id using Nat.strongRecOn generalizing field with
  | ind id ih =>
    obtain ⟨links, last, travels, le⟩ := exists_travelsAs wf known
    obtain ⟨d, declared, -⟩ := travels.declared
    obtain ⟨outline, found⟩ := exists_outline wf standard travels field
    have fits := fits_of_outline wf travels declared found
    -- The parts stand before the shape that gives the structure, and reach no more than it does.
    have part (r : ShapeId) (mem : r ∈ d.references) (name : Option String) :
        c.Settled r (c.format (c.schema.use r name none)) := by
      have earlier : r < id := Nat.lt_of_lt_of_le (wf.lt_of_declared declared r mem) le
      refine ih r earlier (Nat.lt_trans earlier known) (fun other fields reached => ?_) name
      exact unhinted other fields (travels.reaches.trans (reached.of_reference declared mem))
    have bare : ∀ fields, d = .container fields → ∀ field ∈ fields, field.hint = none := by
      rintro fields rfl
      exact unhinted last fields travels.reaches declared
    have settled : List.Forall₂ (fun r part => c.Settled r (c.format part)) d.references
        outline.parts := by
      refine ((List.forall₂_and_left _ _).mpr ⟨part, fits.parts bare⟩).imp ?_
      rintro r _ ⟨settled, name, rfl⟩
      exact settled name
    rw [format_eq wf (plain_use id field none) (Nat.zero_lt_of_lt known) found]
    cases parts : outline.parts.mapM c.format with
    | error e =>
      -- The part that failed cannot resolve, and the shape reaches what the part reaches.
      obtain ⟨r, mem, part, fails, failed⟩ := exists_of_mapM_eq_error settled parts
      rw [failed] at fails
      refine ⟨fun resolvable => fails.1 ?_, fails.2⟩
      have structural := (resolvable_of_travelsAs travels).mp resolvable
      exact ((resolvable_iff declared).mp structural).2 r mem
    | ok ps =>
      refine settled_finish travels declared fits (forall₂_of_common settled
        (mapM_eq_ok.mp parts).flip fun r _ p _ part settled resolved => ?_)
      rw [resolved] at settled
      exact settled

end Catalog

namespace Codec

variable {hasher : Hasher} {c : Codec} {log : List (Builder.Request × ShapeId)} {b : Builder}
  {id : ShapeId} {sizes : String → Option UInt64}

/-- A shape of a table that was built by any calls, which reaches no hints, resolves with the
standard accessors exactly if the lengths that it reaches are known, the vectors that it reaches
have elements, and the exact sizes that it reaches fit in 32 bits.  Resolution never looks for an
accessor in vain, and goes no deeper than the place of the shape; the sizes it finds are exact. -/
theorem resolves_iff_resolvable (reached : Builder.Reached log b)
    (session : Session { schema := b.schema, sizes } hasher c) (known : id < b.schema.size)
    (unhinted : Catalog.Unhinted { schema := b.schema, sizes } id) :
    let catalog : Catalog := { schema := b.schema, sizes }
    let answer := ((format id).run c).1
    (∀ bound, id < bound →
        ((catalog.resolveBelow bound (b.schema.descriptor id)).run c.cache).1 = answer) ∧
      (∀ shape field hint, answer ≠ .error (.unsupported shape field hint)) ∧
      ((∃ f, answer = .ok f) ↔ catalog.Resolvable id) ∧
      ∀ f, answer = .ok f → f.descriptor.shape = id ∧ Everywhere Format.parts (fun g =>
        (∀ n, g.fixedSize = some n ↔ catalog.ExactSize g.descriptor.shape n) ∧
          (g.fixedSize = none ↔ b.schema.Varies g.descriptor.shape)) f := by
  intro catalog answer
  have wf : catalog.schema.WellFormed := reached.wellFormed
  have fresh : answer = catalog.format (b.schema.descriptor id) := run_format wf session id
  have settled : catalog.Settled id answer := by
    rw [fresh, ← Schema.use_none]
    exact Catalog.settled_format wf rfl known unhinted none
  refine ⟨fun bound room => ?_, fun shape field hint failed => ?_, ⟨?_, fun resolvable => ?_⟩, ?_⟩
  · have plain : catalog.Plain (b.schema.descriptor id) := Catalog.plain_descriptor id
    have here : (b.schema.descriptor id).shape = id := Schema.shape_descriptor b.schema id
    have serves := Catalog.resolveBelow_serves catalog.registry.blind wf plain
      (here.symm ▸ room) (here.symm ▸ known) (session.kept wf)
    exact serves.answer_eq.trans fresh.symm
  · rw [failed] at settled
    exact settled.2 shape field hint rfl
  · rintro ⟨f, found⟩
    rw [found] at settled
    exact settled.1
  · cases found : answer with
    | ok f => exact ⟨f, rfl⟩
    | error e =>
      rw [found] at settled
      exact absurd resolvable settled.1
  · intro f found
    rw [found] at settled
    refine ⟨settled.2.2, settled.2.1.imp fun g measures => ⟨fun n => ?_, ?_⟩⟩
    · exact measures.eq_some_iff
    · exact measures.eq_none_iff

/-- A number, a vector of as many of them as a variable says, a subclass of the vector, and a
container of the subclass and the number. -/
theorem resolves_iff_resolvable_words :
    let words : Extent := .named "WORDS"
    let rows : List Entry := [⟨"uint64", .basic (.uint 8)⟩,
      ⟨"Vector[uint64,WORDS]", .sequence 0 (.vector words)⟩, ⟨"Words", .subclass 1 .ok⟩,
      ⟨"Message", .container [⟨"words", 2, none⟩, ⟨"tag", 0, none⟩]⟩]
    let catalog : Catalog := {
      schema := { entries := rows }
      sizes := fun name => if name = "WORDS" then some 4 else none }
    catalog.Resolvable 3 ∧ catalog.ExactSize 3 40 := by
  intro words rows catalog
  have reached : Builder.Reached [(.basic (.uint 8), 0), (.vector 0 words, 1),
      (.subclass "Words" 1 .ok, 2),
      (.container "Message" [⟨"words", 2, none⟩, ⟨"tag", 0, none⟩], 3)]
      { schema := { entries := rows } } :=
    .call (.container "Message" [⟨"words", 2, none⟩, ⟨"tag", 0, none⟩])
      (.call (.subclass "Words" 1 .ok)
        (.call (.vector 0 words) (.call (.basic (.uint 8)) .start nofun) (by decide)) (by decide))
      (by decide)
  have unhinted : catalog.Unhinted 3 := by
    intro other fields _ declared
    rcases other with _ | _ | _ | _ | other <;> cases declared
    decide
  obtain ⟨-, -, resolves, sizes⟩ :=
    @resolves_iff_resolvable .sha256 { catalog } _ _ 3 catalog.sizes reached .start (by decide)
      unhinted
  obtain ⟨f, found, size⟩ : ∃ f, ((format 3).run { catalog }).1 = .ok f ∧ f.fixedSize = some 40 :=
    ⟨_, rfl, rfl⟩
  obtain ⟨shape, exactly⟩ := sizes f found
  have sized := (exactly.here.1 40).mp size
  rw [shape] at sized
  exact ⟨resolves.mp ⟨f, found⟩, sized⟩

end Codec

end SimpleSerialize
