/-
What is read can be lifted.

The functions of subclasses may put another value in the place of one that was read, and then it is
up to them whether a model lifts it.  A function keeps what a model lifts if it gives back such
values where it is given them: functions that leave values alone do so, and so do those that make
another number of the same width of a number.  If the functions that stand under the names of
newtypes keep what the newtypes lift, then the model lifts whatever is read.  Main statements:

* `Format.items_of_decode`: a sequence that is read is put together from as many elements as its
  regime admits;
* `Model.liftable_of_format`: a model lifts what the format of its shape reads.
-/
import SimpleSerialize.Proofs.FaultNames

namespace SimpleSerialize

/-- A format gives a value for some bytes. -/
def Format.Reads (f : Format) (v : Value) : Prop := ∃ bytes, f.decode bytes = .ok v

theorem Format.reads_of_aligned {fs : List Format} {windows : List Bytes} {values : List Value}
    (each : Aligned (fun f window v => f.decode window = .ok v) fs windows values) :
    List.Forall₂ Format.Reads fs values := by
  induction each with
  | nil => exact .nil
  | @cons f window v fs windows values here _ ih => exact .cons ⟨window, here⟩ ih

/-! ### Sequences that are read -/

section Sequences

variable {head : Heading} {a : Handler ListAccessor} {regime : Regime} {g : Format} {bytes : Bytes}
  {v w : Value} {items : List Value}

/-- The elements that a sequence was made of are those that models find in it. -/
theorem Model.elements_of_create (name : String) (h : a.base.create a.shape items = .ok w) :
    Model.elements name w = .ok items := by
  have taken : a.base.items a.shape w = .ok items := (ListAccessor.items_of_create h).2
  obtain rfl | ⟨-, bs, rfl, rfl⟩ := ListAccessor.items_eq_ok.mp taken
  · rfl
  · rfl

/-- A sequence that is read is put together from as many elements as its regime admits, each of them
read from a window of the bytes, and then handed to the links. -/
theorem Format.items_of_decode (name : String)
    (h : (Format.list head a regime g).decode bytes = .ok v) :
    ∃ w items, a.finish w = .ok v ∧ Model.elements name w = .ok items ∧
      regime.Admits items.length ∧ ∀ item ∈ items, ∃ window,
        (Format.list head a regime g).WindowOf bytes g window ∧ g.decode window = .ok item := by
  obtain ⟨windows, items, w, cut, each, made, done⟩ := decode_list_eq_ok.mp h
  obtain ⟨admits, -, -⟩ := Layout.written_of_elementWindows cut
  refine ⟨w, items, done, Model.elements_of_create name made, each.length_eq ▸ admits, ?_⟩
  have inside := (List.forall₂_and_left _ _).mpr ⟨fun _ mem => mem, each⟩
  exact forall_right inside fun window item ⟨mem, read⟩ => ⟨window, .item cut mem, read⟩

end Sequences

namespace Model

/-- The model lifts the value. -/
def Liftable (m : Model) (v : Value) : Prop := ∃ x, m.lift v = .ok x

/-- A function gives back what the model lifts whenever it is given that. -/
def Keeps (m : Model) (rebuild : Rebuild) : Prop :=
  ∀ v w, m.Liftable v → rebuild v = .ok w → m.Liftable w

theorem keeps_of_inert {m : Model} {rebuild : Rebuild} (inert : rebuild.Inert) : m.Keeps rebuild :=
  fun v w made same => inert v w same ▸ made

/-! ### Nodes -/

section Nodes

variable {m element : Model} {head : Heading} {g : Format} {v w : Value}

/-- Links that keep what a model lifts leave it so. -/
theorem liftable_of_finish {α : Type} {a : Handler α} (kept : ∀ link ∈ a.links, m.Keeps link.2)
    (made : m.Liftable w) (done : a.finish w = .ok v) : m.Liftable v := by
  rw [Handler.finish] at done
  replace kept : ∀ link ∈ a.links.reverse, m.Keeps link.2 :=
    fun link mem => kept link (List.mem_reverse.mp mem)
  generalize a.links.reverse = links at kept done
  induction links generalizing w with
  | nil => exact pure_eq_ok.mp done ▸ made
  | cons link links ih =>
    rw [List.foldlM_cons, bind_eq_ok] at done
    obtain ⟨u, first, rest⟩ := done
    rw [Handler.relink] at first
    split at first
    · cases first
      exact ih (kept link List.mem_cons_self _ _ made ‹_›)
        (fun l mem => kept l (List.mem_cons_of_mem _ mem)) rest
    · cases first

section Basic

variable {a : Handler BasicForm}

/-- What a basic format reads is lifted by the models that lift what it reads without links. -/
theorem liftable_basic (lifts : m.Lifts (.basic head { a with links := [] }))
    (kept : ∀ link ∈ a.links, m.Keeps link.2) (reads : (Format.basic head a).Reads v) :
    m.Liftable v := by
  obtain ⟨bytes, h⟩ := reads
  obtain ⟨length, w, made, done⟩ := Format.decode_basic_eq_ok.mp h
  have inert : (Format.basic head { a with links := [] }).AllLinks Rebuild.Inert :=
    .node nofun nofun
  have read : (Format.basic head { a with links := [] }).decode bytes = .ok w :=
    Format.decode_basic_eq_ok.mpr ⟨length, w, made, rfl⟩
  obtain ⟨x, lifted, -⟩ := lifts.accept w bytes (Format.isNormal_of_decode inert read)
    (Format.encode_eq_of_decode inert read)
  exact liftable_of_finish kept ⟨x, lifted⟩ done

end Basic

section Sequence

variable {a : Handler ListAccessor} {regime : Regime}

/-- All elements of a sequence that is read are lifted, if each of them is. -/
theorem lifted_items (name : String) (inner : ∀ v, g.Reads v → element.Liftable v)
    (reads : (Format.list head a regime g).Reads v) :
    ∃ w xs, a.finish w = .ok v ∧ regime.Admits xs.length ∧
      (elements name w >>= fun items => items.mapM fun item => element.lift item) = .ok xs := by
  obtain ⟨bytes, h⟩ := reads
  obtain ⟨w, items, done, found, admits, each⟩ := Format.items_of_decode name h
  obtain ⟨xs, lifted⟩ : ∃ xs, List.Forall₂ (fun item x => element.lift item = .ok x) items xs :=
    exists_forall₂ fun item mem =>
      have ⟨window, _, read⟩ := each item mem
      inner item ⟨window, read⟩
  exact ⟨w, xs, done, lifted.length_eq ▸ admits,
    bind_eq_ok.mpr ⟨items, found, mapM_eq_ok.mpr lifted⟩⟩

end Sequence

section Union

variable {a : Handler UnionAccessor} {nullable : Bool} {gs : List Format}
  {variants : ModelVariants}

/-- A union that is read has the empty case or a body that is read, and is then handed to the
links. -/
theorem union_of_read (reads : (Format.union head a nullable gs).Reads v) :
    ∃ selector body, a.finish (.union selector body) = .ok v ∧
      ((Variant.select nullable gs selector = some .empty ∧ body = none) ∨
        ∃ g w, Variant.select nullable gs selector = some (.body g) ∧ g.Reads w ∧
          body = some w) := by
  obtain ⟨bytes, h⟩ := reads
  obtain ⟨selector, rest, body, -, done, chosen⟩ := Format.decode_union_eq_ok.mp h
  refine ⟨selector, body, done, chosen.imp (fun ⟨empty, _, held⟩ => ⟨empty, held⟩) ?_⟩
  exact fun ⟨g, w, chosen, read, held⟩ => ⟨g, w, chosen, ⟨rest, read⟩, held⟩

theorem liftable_option (inner : ∀ v, g.Reads v → element.Liftable v)
    (kept : ∀ link ∈ a.links, (Model.option element).Keeps link.2)
    (reads : (Format.union head a true [g]).Reads v) : (Model.option element).Liftable v := by
  obtain ⟨selector, body, done, ⟨chosen, rfl⟩ | ⟨f, w, chosen, read, rfl⟩⟩ := union_of_read reads
  · obtain ⟨-, rfl⟩ := Variant.select_eq_empty.mp chosen
    exact liftable_of_finish kept ⟨none, lift_option_none⟩ done
  · obtain ⟨i, place, here⟩ := Variant.select_eq_body.mp chosen
    obtain ⟨rfl, rfl⟩ : i = 0 ∧ g = f := by
      cases i with
      | zero => exact ⟨rfl, Option.some.inj here⟩
      | succ i => cases here
    obtain rfl : selector = 1 := UInt32.toNat_inj.mp place
    obtain ⟨x, lifted⟩ := inner w read
    exact liftable_of_finish kept ⟨some x, lift_option_some lifted⟩ done

/-- The body of every variant is lifted where it is read. -/
def VariantsLiftable (variants : ModelVariants) (gs : List Format) : Prop :=
  ∀ name i g w, gs[i]? = some g → g.Reads w → ∃ x, liftVariant name variants i w = .ok x

theorem liftable_choice {name : String} (each : VariantsLiftable variants gs)
    (kept : ∀ link ∈ a.links, (Model.choice name nullable variants).Keeps link.2)
    (reads : (Format.union head a nullable gs).Reads v) :
    (Model.choice name nullable variants).Liftable v := by
  obtain ⟨selector, body, done, ⟨chosen, rfl⟩ | ⟨f, w, chosen, read, rfl⟩⟩ := union_of_read reads
  · obtain ⟨rfl, rfl⟩ := Variant.select_eq_empty.mp chosen
    exact liftable_of_finish kept ⟨none, lift_nullableChoice_none⟩ done
  · obtain ⟨i, place, here⟩ := Variant.select_eq_body.mp chosen
    obtain ⟨x, lifted⟩ := each name i f w here read
    refine liftable_of_finish kept ?_ done
    cases nullable with
    | false => exact ⟨x, lift_choice place lifted⟩
    | true => exact ⟨some x, lift_nullableChoice_some place lifted⟩

theorem variantsLiftable_nil : VariantsLiftable .nil [] := fun _ _ _ _ here => nomatch here

theorem variantsLiftable_cons (first : ∀ v, g.Reads v → element.Liftable v)
    (rest : VariantsLiftable variants gs) :
    VariantsLiftable (.cons element variants) (g :: gs) := by
  intro name i f w here read
  cases i with
  | zero =>
    obtain rfl : g = f := Option.some.inj here
    obtain ⟨x, lifted⟩ := first w read
    exact ⟨.inl x, bind_eq_ok.mpr ⟨x, lifted, rfl⟩⟩
  | succ i =>
    obtain ⟨x, lifted⟩ := rest name i f w here read
    exact ⟨.inr x, bind_eq_ok.mpr ⟨x, lifted, rfl⟩⟩

end Union

section Container

variable {a : Handler ContainerAccessor} {size : Option Nat} {gs : List Format}
  {fields : ModelFields}

/-- Values that are read for each field are lifted together. -/
def FieldsLiftable (fields : ModelFields) (gs : List Format) : Prop :=
  ∀ name values, List.Forall₂ Format.Reads gs values →
    values.length = fields.length ∧ ∃ xs, liftFields name fields values = .ok xs

theorem liftable_record {name : String} (each : FieldsLiftable fields gs)
    (kept : ∀ link ∈ a.links, (Model.record name fields).Keeps link.2)
    (reads : (Format.container head a gs size).Reads v) :
    (Model.record name fields).Liftable v := by
  obtain ⟨bytes, h⟩ := reads
  obtain ⟨windows, values, -, read, done⟩ := Format.decode_container_eq_ok.mp h
  obtain ⟨arity, xs, lifted⟩ := each name values (Format.reads_of_aligned read)
  exact liftable_of_finish kept ⟨xs, lift_record arity lifted⟩ done

theorem fieldsLiftable_nil : FieldsLiftable .nil [] := by
  intro name values read
  cases read
  exact ⟨rfl, (), rfl⟩

theorem fieldsLiftable_cons {name : String} {hint : Option String}
    (first : ∀ v, g.Reads v → element.Liftable v) (rest : FieldsLiftable fields gs) :
    FieldsLiftable (.cons name element hint fields) (g :: gs) := by
  intro record values read
  cases read with
  | cons here others =>
    obtain ⟨x, lifted⟩ := first _ here
    obtain ⟨arity, xs, lifteds⟩ := rest record _ others
    refine ⟨congrArg (· + 1) arity, (x, xs), ?_⟩
    exact bind_eq_ok.mpr ⟨x, lifted, bind_eq_ok.mpr ⟨xs, lifteds, rfl⟩⟩

end Container

end Nodes

/-! ### Declared models -/

mutual

/-- The functions that stand under the names of newtypes keep what the newtypes lift. -/
def NewtypesLift (s : Schema) : Model → Prop
  | .list element | .vector element _ | .boundedList element _ => element.NewtypesLift s
  | .sizedVector element _ | .sizedList element _ => element.NewtypesLift s
  | .option body => body.NewtypesLift s
  | .newtype name inner _ => (∀ id next rebuild, s.name id = name →
      s.declaration? id = some (.subclass next rebuild) → inner.Keeps rebuild) ∧
    inner.NewtypesLift s
  | .record _ fields => FieldsNewtypesLift s fields
  | .choice _ _ variants => VariantsNewtypesLift s variants
  | _ => True

def FieldsNewtypesLift (s : Schema) : ModelFields → Prop
  | .nil => True
  | .cons _ model _ rest => model.NewtypesLift s ∧ FieldsNewtypesLift s rest

def VariantsNewtypesLift (s : Schema) : ModelVariants → Prop
  | .nil => True
  | .cons model rest => model.NewtypesLift s ∧ VariantsNewtypesLift s rest

end

variable {s : Schema} {c : Catalog} {id last : ShapeId} {links : List (String × Rebuild)}

theorem not_subclass_of_row {name : String} {d : Declaration} (row : s.Row id name d)
    (plain : ∀ next rebuild, d ≠ .subclass next rebuild) {next : ShapeId} {rebuild : Rebuild} :
    s.declaration? id ≠ some (.subclass next rebuild) := fun declared =>
  plain _ _ (Option.some.inj ((row.declaration_eq plain).symm.trans declared))

/-- What is declared as something else than a subclass travels as itself. -/
theorem links_of_row {name : String} {d : Declaration} (row : s.Row id name d)
    (plain : ∀ next rebuild, d ≠ .subclass next rebuild) (travels : s.TravelsAs id links last) :
    links = [] := by
  cases travels with
  | target => rfl
  | link declared => exact absurd declared (not_subclass_of_row row plain)

/-- Of all models only newtypes are declared as subclasses. -/
theorem DeclaredIn.newtype_of_subclass {m : Model} (inside : m.DeclaredIn s id) {next : ShapeId}
    {rebuild : Rebuild} (declared : s.declaration? id = some (.subclass next rebuild)) :
    ∃ name inner check, m = .newtype name inner check := by
  cases m with
  | newtype name inner check => exact ⟨name, inner, check, rfl⟩
  | bool | uint | uint256 | bytes =>
    exact absurd declared (not_subclass_of_row inside fun _ _ same => Declaration.noConfusion same)
  | list | option | vector | boundedList | sizedVector | sizedList | record | choice =>
    obtain ⟨_, -, row⟩ := inside
    exact absurd declared (not_subclass_of_row row fun _ _ same => Declaration.noConfusion same)

/-- The links that a model travels through are newtypes around the same instances, and keep what the
model lifts. -/
theorem keeps_of_travels {m : Model} (travels : s.TravelsAs id links last)
    (inside : m.DeclaredIn s id) (lift : m.NewtypesLift s) : ∀ link ∈ links, m.Keeps link.2 := by
  induction travels generalizing m with
  | target => nofun
  | link declared _ ih =>
    obtain ⟨name, inner, check, rfl⟩ := inside.newtype_of_subclass declared
    obtain ⟨e, inside, row⟩ := inside
    obtain ⟨kept, below⟩ := lift
    obtain ⟨rebuild, same⟩ := row.subclass_eq
    cases same.symm.trans declared
    -- What is inside lifts the same values.
    have others := ih inside below
    exact List.forall_mem_cons.mpr ⟨kept _ _ _ row.name_eq declared, others⟩

theorem keeps_of_format {m : Model} {field hint : Option String} {bound : Nat} {f : Format}
    (wf : c.schema.WellFormed) (declared : m.DeclaredIn c.schema id)
    (lift : m.NewtypesLift c.schema)
    (h : c.formatBelow bound (c.schema.use id field hint) = .ok f) :
    ∀ link ∈ f.links, m.Keeps link.2 := by
  obtain ⟨d, row⟩ := declared.row
  obtain ⟨links, last, travels, -⟩ := Schema.exists_travelsAs wf row.lt_size
  rw [(Catalog.handler_of_format wf travels h).2]
  exact keeps_of_travels travels declared lift

mutual

/-- A model lifts what is read by the format of a shape that travels as its own, if the functions
under the names of newtypes and those around the format keep what can be lifted. -/
theorem liftable_of_target (wf : c.schema.WellFormed) :
    ∀ (m : Model) {id user : ShapeId} {field hint : Option String} {bound : Nat} {f : Format},
      m.DeclaredIn c.schema id → m.NewtypesLift c.schema → c.schema.SameTarget user id →
      c.formatBelow bound (c.schema.use user field hint) = .ok f →
      (∀ link ∈ f.links, m.Keeps link.2) → ∀ v, f.Reads v → m.Liftable v
  | .bool, _, _, _, _, _, _, row, _, same, h, kept, _, reads => by
    obtain ⟨head, a, rfl, form⟩ := basic_of_row wf row same h
    exact liftable_basic (lifts_bool form) kept reads
  | .uint size, _, _, _, _, _, _, row, _, same, h, kept, _, reads => by
    obtain ⟨head, a, rfl, form⟩ := basic_of_row wf row same h
    refine liftable_basic (lifts_uint (form.trans ?_)) kept reads
    cases size <;> rfl
  | .uint256, _, _, _, _, _, _, row, _, same, h, kept, _, reads => by
    obtain ⟨head, a, rfl, form⟩ := basic_of_row wf row same h
    exact liftable_basic (lifts_uint256 form) kept reads
  | .bytes length, _, _, _, _, _, _, row, _, same, h, kept, _, reads => by
    obtain ⟨head, a, rfl, form⟩ := basic_of_row wf row same h
    exact liftable_basic (lifts_bytes form) kept reads
  | .list element, _, _, _, _, _, _, ⟨e, inside, row⟩, lift, same, h, kept, _, reads => by
    obtain ⟨below, name, head, a, regime, g, rfl, -, found⟩ := list_of_row wf row same h
    have inner := liftable_of_target wf element inside lift (inside.sameTarget wf) found
      (keeps_of_format wf inside lift found)
    obtain ⟨w, xs, done, -, lifted⟩ := lifted_items (shapeName (.list element)) inner reads
    exact liftable_of_finish kept ⟨xs, lifted⟩ done
  | .option body, _, _, _, _, _, _, ⟨e, inside, row⟩, lift, same, h, kept, _, reads => by
    obtain ⟨below, head, a, gs, rfl, each⟩ := union_of_row wf row same h
    cases each with
    | cons found rest =>
      cases rest
      have inner := liftable_of_target wf body inside lift (inside.sameTarget wf) found
        (keeps_of_format wf inside lift found)
      exact liftable_option inner kept reads
  | .vector element length, _, _, _, _, _, _, ⟨e, inside, row⟩, lift, same, h, kept, _, reads => by
    obtain ⟨below, name, head, a, regime, g, rfl, hregime, found⟩ := list_of_row wf row same h
    obtain ⟨_, same, rfl⟩ := Catalog.vector_of_regime hregime
    cases same
    have inner := liftable_of_target wf element inside lift (inside.sameTarget wf) found
      (keeps_of_format wf inside lift found)
    obtain ⟨w, xs, done, admits, lifted⟩ :=
      lifted_items (shapeName (.vector element length)) inner reads
    exact liftable_of_finish kept ⟨⟨xs, admits⟩, lift_vector ⟨xs, admits⟩ lifted⟩ done
  | .boundedList element limit, _, _, _, _, _, _, ⟨e, inside, row⟩, lift, same, h, kept, _,
      reads => by
    obtain ⟨below, name, head, a, regime, g, rfl, hregime, found⟩ := list_of_row wf row same h
    cases hregime
    have inner := liftable_of_target wf element inside lift (inside.sameTarget wf) found
      (keeps_of_format wf inside lift found)
    obtain ⟨w, xs, done, admits, lifted⟩ :=
      lifted_items (shapeName (.boundedList element limit)) inner reads
    exact liftable_of_finish kept ⟨⟨xs, admits⟩, lift_boundedList ⟨xs, admits⟩ lifted⟩ done
  | .sizedVector element length, _, _, _, _, _, _, ⟨e, inside, row⟩, lift, same, h, kept, _,
      reads => by
    obtain ⟨below, name, head, a, regime, g, rfl, -, found⟩ := list_of_row wf row same h
    have inner := liftable_of_target wf element inside lift (inside.sameTarget wf) found
      (keeps_of_format wf inside lift found)
    obtain ⟨w, xs, done, -, lifted⟩ :=
      lifted_items (shapeName (.sizedVector element length)) inner reads
    exact liftable_of_finish kept ⟨xs, lifted⟩ done
  | .sizedList element limit, _, _, _, _, _, _, ⟨e, inside, row⟩, lift, same, h, kept, _,
      reads => by
    obtain ⟨below, name, head, a, regime, g, rfl, -, found⟩ := list_of_row wf row same h
    have inner := liftable_of_target wf element inside lift (inside.sameTarget wf) found
      (keeps_of_format wf inside lift found)
    obtain ⟨w, xs, done, -, lifted⟩ :=
      lifted_items (shapeName (.sizedList element limit)) inner reads
    exact liftable_of_finish kept ⟨xs, lifted⟩ done
  | .newtype name inner check, _, _, _, _, _, _, ⟨e, inside, row⟩, ⟨_, lift⟩, same, h, kept, v,
      reads => by
    -- The newtype lifts what is inside it lifts, and the same shape travels as both.
    obtain ⟨rebuild, declared⟩ := row.subclass_eq
    exact liftable_of_target wf inner inside lift (same.subclass declared) h kept v reads
  | .record name fields, _, _, _, _, _, _, ⟨fs, inside, row⟩, lift, same, h, kept, _, reads => by
    obtain ⟨links, travels⟩ := same.travels (row.declaration_eq nofun) nofun
    obtain ⟨below, head, a, gs, size, rfl, each⟩ :=
      Catalog.container_of_format wf travels (row.declaration_eq nofun) h
    exact liftable_record (fieldsLiftable_of_formats wf fields inside lift each) kept reads
  | .choice name nullable variants, _, _, _, _, _, _, ⟨ids, inside, row⟩, lift, same, h, kept, _,
      reads => by
    obtain ⟨below, head, a, gs, rfl, each⟩ := union_of_row wf row same h
    exact liftable_choice (variantsLiftable_of_formats wf variants inside lift each) kept reads

theorem fieldsLiftable_of_formats (wf : c.schema.WellFormed) :
    ∀ (fields : ModelFields) {fs : List Field} {bound : Nat} {gs : List Format},
      FieldsDeclaredIn fields c.schema fs → FieldsNewtypesLift c.schema fields →
      List.Forall₂ (fun x g =>
        c.formatBelow bound (c.schema.use x.shape (some x.name) x.hint) = .ok g) fs gs →
      FieldsLiftable fields gs
  | .nil, _, _, _, rfl, _, each => by
    cases each
    exact fieldsLiftable_nil
  | .cons name model hint rest, _, _, _, ⟨id, others, inside, remaining, rfl⟩, ⟨lift, lifts⟩,
      each => by
    cases each with
    | cons found each =>
      have inner := liftable_of_target wf model inside lift (inside.sameTarget wf) found
        (keeps_of_format wf inside lift found)
      exact fieldsLiftable_cons inner (fieldsLiftable_of_formats wf rest remaining lifts each)

theorem variantsLiftable_of_formats (wf : c.schema.WellFormed) :
    ∀ (variants : ModelVariants) {ids : List ShapeId} {bound : Nat} {gs : List Format},
      VariantsDeclaredIn variants c.schema ids → VariantsNewtypesLift c.schema variants →
      List.Forall₂ (fun id g =>
        c.formatBelow bound (c.schema.use id none none) = .ok g) ids gs →
      VariantsLiftable variants gs
  | .nil, _, _, _, rfl, _, each => by
    cases each
    exact variantsLiftable_nil
  | .cons model rest, _, _, _, ⟨id, others, inside, remaining, rfl⟩, ⟨lift, lifts⟩, each => by
    cases each with
    | cons found each =>
      have inner := liftable_of_target wf model inside lift (inside.sameTarget wf) found
        (keeps_of_format wf inside lift found)
      exact variantsLiftable_cons inner (variantsLiftable_of_formats wf rest remaining lifts each)

end

/-- A model lifts what the format of its shape reads, if the functions that stand under the names of
newtypes keep what the newtypes lift. -/
theorem liftable_of_format {m : Model} {f : Format} (wf : c.schema.WellFormed)
    (declared : m.DeclaredIn c.schema id) (lift : m.NewtypesLift c.schema)
    (resolved : c.format (c.schema.descriptor id) = .ok f) : ∀ v, f.Reads v → m.Liftable v := by
  rw [Catalog.format, ← Schema.use_none] at resolved
  exact liftable_of_target wf m declared lift (declared.sameTarget wf) resolved
    (keeps_of_format wf declared lift resolved)

end Model

end SimpleSerialize
