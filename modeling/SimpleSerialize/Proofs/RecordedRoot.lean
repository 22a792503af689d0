/-
Roots of values, with everything that is hashed for them on record.

The walk is the one that computes roots; only the hashes are recorded.  What a part contributes to
the record of a node is part of that record, so that collisions among the parts are collisions of
the whole.  Main statements:

* `Format.result_rootRecorded`: the recorded walk gives the root;
* `Format.recorded_basic`, `recorded_list`, `recorded_union`, `recorded_container`: what a node has
  on record, for values that have no root of their own.
-/
import SimpleSerialize.Proofs.Merkle.Binding
import SimpleSerialize.Proofs.Walk

namespace SimpleSerialize

/-- A computation that may fail, with the pairs of chunks that were hashed for it on record. -/
abbrev Hashing := ExceptT EncodeError Recorded

namespace Hashing

variable {α β γ : Type}

/-! ### Results -/

theorem result_bind (x : Hashing α) (next : α → Hashing β) :
    (x >>= next).run.result = x.run.result >>= fun a => (next a).run.result := by
  show (x.run >>= ExceptT.bindCont next).result = _
  rw [Recorded.result_bind]
  cases x.run.result <;> rfl

theorem result_except (x : Except EncodeError α) : (liftM x : Hashing α).run.result = x := by
  cases x <;> rfl

theorem result_recorded (x : Recorded α) : (liftM x : Hashing α).run.result = .ok x.result := rfl

theorem result_mapM (step : α → Hashing β) (as : List α) :
    (as.mapM step).run.result = as.mapM fun a => (step a).run.result := by
  induction as with
  | nil => rfl
  | cons a as ih =>
    rw [List.mapM_cons, List.mapM_cons, result_bind]
    refine congrArg _ (funext fun b => ?_)
    rw [result_bind, ih]
    rfl

/-! ### Records -/

/-- The computation succeeds with a result, and has some pairs on record. -/
def Gives (x : Hashing α) (a : α) (pairs : List (Root × Root)) : Prop := x.run = ⟨.ok a, pairs⟩

theorem gives_of_result {x : Hashing α} {a : α} (h : x.run.result = .ok a) :
    Gives x a x.run.pairs := by
  rw [Gives, ← h]

theorem gives_iff {x : Hashing α} {a : α} {pairs : List (Root × Root)} :
    Gives x a pairs ↔ x.run.result = .ok a ∧ x.run.pairs = pairs := by
  rw [Gives, Recorded.ext_iff]

theorem gives_pure {a b : α} {pairs : List (Root × Root)} :
    Gives (pure a) b pairs ↔ a = b ∧ pairs = [] := by
  rw [gives_iff, eq_comm]
  exact and_congr ⟨fun h => (Except.ok.inj h).symm, fun h => congrArg _ h.symm⟩ eq_comm

theorem gives_except {x : Except EncodeError α} {a : α} {pairs : List (Root × Root)} :
    Gives (liftM x) a pairs ↔ x = .ok a ∧ pairs = [] := by
  rw [gives_iff, result_except]
  cases x <;> exact and_congr_right fun _ => eq_comm

theorem gives_recorded {x : Recorded α} {a : α} {pairs : List (Root × Root)} :
    Gives (liftM x) a pairs ↔ x.result = a ∧ pairs = x.pairs := by
  rw [gives_iff, result_recorded, Except.ok.injEq]
  have record : (liftM x : Hashing α).run.pairs = x.pairs := List.append_nil _
  rw [record]
  exact and_congr_right fun _ => eq_comm

theorem gives_bind {x : Hashing α} {next : α → Hashing β} {b : β} {pairs : List (Root × Root)} :
    Gives (x >>= next) b pairs ↔
      ∃ a ps qs, Gives x a ps ∧ Gives (next a) b qs ∧ pairs = ps ++ qs := by
  have run : (x >>= next).run = (x.run >>= ExceptT.bindCont next : Recorded _) := rfl
  simp only [gives_iff, run, Recorded.result_bind, Recorded.pairs_bind]
  generalize x.run = outcome
  obtain ⟨result, ps⟩ := outcome
  cases result with
  | error e =>
    constructor
    · rintro ⟨h, -⟩
      cases h
    · rintro ⟨a, _, _, ⟨h, -⟩, -⟩
      cases h
  | ok a =>
    constructor
    · rintro ⟨h, rfl⟩
      exact ⟨a, ps, _, ⟨rfl, rfl⟩, ⟨h, rfl⟩, rfl⟩
    · rintro ⟨a, ps, qs, ⟨h, rfl⟩, ⟨h', rfl⟩, rfl⟩
      cases h
      exact ⟨h', rfl⟩

/-- A step that hashes nothing has nothing on record. -/
theorem gives_bind_except {x : Except EncodeError α} {next : α → Hashing β} {b : β}
    {pairs : List (Root × Root)} :
    Gives (liftM x >>= next) b pairs ↔ ∃ a, x = .ok a ∧ Gives (next a) b pairs := by
  rw [gives_bind]
  constructor
  · rintro ⟨a, ps, qs, first, rest, rfl⟩
    obtain ⟨ha, rfl⟩ := gives_except.mp first
    exact ⟨a, ha, rest⟩
  · rintro ⟨a, ha, rest⟩
    exact ⟨a, [], pairs, gives_except.mpr ⟨ha, rfl⟩, rest, rfl⟩

theorem gives_bind_recorded {x : Recorded α} {next : α → Hashing β} {b : β}
    {pairs : List (Root × Root)} :
    Gives (liftM x >>= next) b pairs ↔
      ∃ qs, Gives (next x.result) b qs ∧ pairs = x.pairs ++ qs := by
  rw [gives_bind]
  constructor
  · rintro ⟨a, ps, qs, first, rest, rfl⟩
    obtain ⟨rfl, rfl⟩ := gives_recorded.mp first
    exact ⟨qs, rest, rfl⟩
  · rintro ⟨qs, rest, rfl⟩
    exact ⟨_, _, qs, gives_recorded.mpr ⟨rfl, rfl⟩, rest, rfl⟩

/-- A repeated step has on record what each of the steps has. -/
theorem gives_mapM {step : α → Hashing β} {as : List α} {bs : List β}
    {pairs : List (Root × Root)} :
    Gives (as.mapM step) bs pairs ↔
      ∃ outs : List (β × List (Root × Root)),
        List.Forall₂ (fun a out => Gives (step a) out.1 out.2) as outs ∧
          bs = outs.map (·.1) ∧ pairs = outs.flatMap (·.2) := by
  induction as generalizing bs pairs with
  | nil =>
    rw [List.mapM_nil, gives_pure]
    constructor
    · rintro ⟨rfl, rfl⟩
      exact ⟨[], .nil, rfl, rfl⟩
    · rintro ⟨outs, each, rfl, rfl⟩
      cases each
      exact ⟨rfl, rfl⟩
  | cons a as ih =>
    simp only [List.mapM_cons, gives_bind, gives_pure, ih]
    constructor
    · rintro ⟨b, ps, _, head, ⟨_, _, _, ⟨outs, each, rfl, rfl⟩, ⟨rfl, rfl⟩, rfl⟩, rfl⟩
      refine ⟨(b, ps) :: outs, .cons head each, rfl, ?_⟩
      rw [List.append_nil, List.flatMap_cons]
    · rintro ⟨outs, each, rfl, rfl⟩
      cases each with
      | cons head tail =>
        exact ⟨_, _, _, head, ⟨_, _, [], ⟨_, tail, rfl, rfl⟩, ⟨rfl, rfl⟩, rfl⟩, by
          rw [List.append_nil, List.flatMap_cons]⟩

/-- Each place has a step of its own, and its own pairs on record. -/
theorem gives_zip_mapM {step : α → β → Hashing γ} {as : List α} {bs : List β} {cs : List γ}
    {pairs : List (Root × Root)} (h : as.length = bs.length) :
    Gives (((as.map step).zip bs).mapM fun (run, b) => run b) cs pairs ↔
      ∃ outs : List (γ × List (Root × Root)),
        Aligned (fun a b out => Gives (step a b) out.1 out.2) as bs outs ∧
          cs = outs.map (·.1) ∧ pairs = outs.flatMap (·.2) := by
  rw [gives_mapM]
  refine exists_congr fun outs => and_congr_left fun _ => ?_
  rw [aligned_iff_zip h, List.zip_map_left, List.forall₂_map_left_iff]
  rfl

end Hashing

namespace Format

/-- Mixes the number of elements into the root of a list. -/
def finishRecorded (h : Hasher) (regime : Regime) (count : Nat) (root : Root) : Recorded Root :=
  match regime with
  | .vector _ => pure root
  | .list _ => Recorded.mixInLength h root count

mutual

/-- The root of a value, on record. -/
def rootRecorded (hasher : Hasher) : Format → Value → Hashing Root
  | basic _ a, v =>
    match v.root? with
    | some root => pure root
    | none => do Recorded.merkleize hasher (pack (← a.encode v)) none
  | list h a regime element, v =>
    match v.root? with
    | some root => pure root
    | none => do
      let items ← liftM (a.items v)
      liftM (regime.check h.name items.length)
      let limit := regime.limit?.map (·.toNat)
      let tree ←
        if element.packable then do
          let pieces ← liftM (items.mapM fun item => element.encode item)
          Recorded.merkleize hasher (pack pieces.flatten)
            (limit.map (chunkLimit element.slotSize))
        else do
          let roots ← items.mapM fun item => element.rootRecorded hasher item
          Recorded.merkleize hasher roots limit
      finishRecorded hasher regime items.length tree
  | union h a nullable variants, v =>
    match v.root? with
    | some root => pure root
    | none => do
      let selector ← liftM (a.selector v)
      match Variant.select nullable (recorders hasher variants) selector with
      | none => throw (.unionSelector h.name selector)
      | some .empty => Recorded.mixInSelector hasher (.zero 32) selector
      | some (.body rootBody) => do
        let body ← liftM (bodyOf h.name (a.body? v))
        Recorded.mixInSelector hasher (← rootBody body) selector
  | container h a fields _, v =>
    match v.root? with
    | some root => pure root
    | none => do
      let values ← liftM (a.fields (← liftM (seen h.name v)))
      liftM (checkArity h.name fields.length values.length)
      let roots ← ((recorders hasher fields).zip values).mapM fun (rootField, value) =>
        rootField value
      Recorded.merkleize hasher roots none

/-- How each of some formats computes the root of a value, on record. -/
def recorders (hasher : Hasher) : List Format → List (Value → Hashing Root)
  | [] => []
  | f :: fs => f.rootRecorded hasher :: recorders hasher fs

end

@[simp] theorem recorders_eq (hasher : Hasher) (fs : List Format) :
    recorders hasher fs = fs.map (rootRecorded hasher) := by
  induction fs with
  | nil => rfl
  | cons f fs ih => rw [recorders, ih, List.map_cons]

open Hashing

-- The equations are made here, for the lemmas of all categories.
attribute [local simp] rootRecorded

theorem result_finishRecorded (h : Hasher) (regime : Regime) (count : Nat) (root : Root) :
    (finishRecorded h regime count root).result = finishSequence h regime count root := by
  cases regime <;> rfl

/-- The recorded walk gives the root. -/
theorem result_rootRecorded (hasher : Hasher) (f : Format) (v : Value) :
    (f.rootRecorded hasher v).run.result = f.root hasher v := by
  induction f generalizing v with
  | basic head a =>
    rw [rootRecorded, root]
    cases v.root? with
    | some root => rfl
    | none =>
      simp only [result_bind, result_except, result_recorded, Recorded.result_merkleize]
      rfl
  | list head a regime element ih =>
    rw [rootRecorded, root]
    cases v.root? with
    | some root => rfl
    | none =>
      simp only [result_bind, result_except]
      refine congrArg _ (funext fun items => congrArg _ (funext fun _ => ?_))
      split
      · simp only [result_bind, result_except, result_recorded, result_finishRecorded,
          Recorded.result_merkleize]
        rfl
      · simp only [result_bind, result_recorded, result_finishRecorded, result_mapM, ih,
          Recorded.result_merkleize]
        rfl
  | union head a nullable variants ih =>
    rw [rootRecorded, root]
    cases v.root? with
    | some root => rfl
    | none =>
      simp only [result_bind, result_except, recorders_eq, rooters_eq, Variant.select_map]
      refine congrArg _ (funext fun selector => ?_)
      cases chosen : Variant.select nullable variants selector with
      | none => rfl
      | some variant =>
        cases variant with
        | empty => rfl
        | body f =>
          simp only [Option.map_some, Variant.map, result_bind, result_except,
            ih f (Variant.mem_of_select chosen)]
          rfl
  | container head a fields size ih =>
    rw [rootRecorded, root]
    cases v.root? with
    | some root => rfl
    | none =>
      simp only [result_bind, result_except, result_mapM, result_recorded, recorders_eq,
        rooters_eq, Recorded.result_merkleize]
      -- A field is paired up with its value before either walk goes down to it.
      have each (values : List Value) :
          ((fields.map (rootRecorded hasher)).zip values).mapM
            (fun pair => (pair.1 pair.2).run.result) =
          ((fields.map (root hasher)).zip values).mapM fun pair => pair.1 pair.2 := by
        rw [List.zip_map_left, List.zip_map_left, List.mapM_map, List.mapM_map]
        refine mapM_congr fun pair mem => ?_
        exact ih _ (List.of_mem_zip mem).1 pair.2
      simp only [each]
      rfl

/-! ### One node -/

section Node

variable {hasher : Hasher} {head : Heading} {regime : Regime} {element : Format} {nullable : Bool}
  {variants fields : List Format} {size : Option Nat} {v : Value} {r : Root}
  {pairs : List (Root × Root)}

theorem recorded_basic {a : Handler BasicForm} (bare : v.root? = none)
    (h : Gives ((basic head a).rootRecorded hasher v) r pairs) :
    ∃ bytes, a.encode v = .ok bytes ∧ r = hasher.merkleize (pack bytes) none ∧
      pairs = (Recorded.merkleize hasher (pack bytes) none).pairs := by
  rw [rootRecorded, bare] at h
  obtain ⟨bytes, encoded, tree⟩ := gives_bind_except.mp h
  obtain ⟨rfl, rfl⟩ := gives_recorded.mp tree
  exact ⟨bytes, encoded, Recorded.result_merkleize _ _ _, rfl⟩

/-- The root of the elements of a sequence, whose number is not mixed in yet, on record. -/
def ElementsRecorded (hasher : Hasher) (regime : Regime) (element : Format) (items : List Value)
    (tree : Root) (pairs : List (Root × Root)) : Prop :=
  if element.packable then
    ∃ pieces, List.Forall₂ (fun item piece => element.encode item = .ok piece) items pieces ∧
      let limit := (regime.limit?.map (·.toNat)).map (chunkLimit element.slotSize)
      tree = hasher.merkleize (pack pieces.flatten) limit ∧
        pairs = (Recorded.merkleize hasher (pack pieces.flatten) limit).pairs
  else
    ∃ outs : List (Root × List (Root × Root)),
      List.Forall₂ (fun item out => Gives (element.rootRecorded hasher item) out.1 out.2) items outs ∧
      let limit := regime.limit?.map (·.toNat)
      tree = hasher.merkleize (outs.map (·.1)) limit ∧
        pairs = outs.flatMap (·.2) ++ (Recorded.merkleize hasher (outs.map (·.1)) limit).pairs

theorem recorded_list {a : Handler ListAccessor} (bare : v.root? = none)
    (h : Gives ((list head a regime element).rootRecorded hasher v) r pairs) :
    ∃ items tree below, a.items v = .ok items ∧ regime.Admits items.length ∧
      ElementsRecorded hasher regime element items tree below ∧
      r = finishSequence hasher regime items.length tree ∧
      pairs = below ++ (finishRecorded hasher regime items.length tree).pairs := by
  rw [rootRecorded, bare] at h
  obtain ⟨items, hitems, checked⟩ := gives_bind_except.mp h
  obtain ⟨done, hcheck, tree⟩ := gives_bind_except.mp checked
  have admits := Regime.check_eq_ok.mp hcheck
  simp only at tree
  by_cases packable : element.packable
  · rw [if_pos packable] at tree
    obtain ⟨pieces, hpieces, packed⟩ := gives_bind_except.mp tree
    obtain ⟨_, mixed, rfl⟩ := gives_bind_recorded.mp packed
    obtain ⟨rfl, rfl⟩ := gives_recorded.mp mixed
    refine ⟨items, _, _, hitems, admits, ?_, result_finishRecorded _ _ _ _, rfl⟩
    rw [ElementsRecorded, if_pos packable]
    exact ⟨pieces, mapM_eq_ok.mp hpieces, Recorded.result_merkleize _ _ _, rfl⟩
  · rw [if_neg packable] at tree
    obtain ⟨roots, _, _, hroots, hashed, rfl⟩ := gives_bind.mp tree
    obtain ⟨outs, each, rfl, rfl⟩ := gives_mapM.mp hroots
    obtain ⟨_, mixed, rfl⟩ := gives_bind_recorded.mp hashed
    obtain ⟨rfl, rfl⟩ := gives_recorded.mp mixed
    refine ⟨items, _, _, hitems, admits, ?_, result_finishRecorded _ _ _ _,
      (List.append_assoc _ _ _).symm⟩
    rw [ElementsRecorded, if_neg packable]
    exact ⟨outs, each, Recorded.result_merkleize _ _ _, rfl⟩

theorem recorded_union {a : Handler UnionAccessor} (bare : v.root? = none)
    (h : Gives ((union head a nullable variants).rootRecorded hasher v) r pairs) :
    ∃ selector below ps, a.selector v = .ok selector ∧
      r = hasher.mixInSelector below selector ∧
      pairs = ps ++ [(below, numberChunk selector.toNat)] ∧
      ((Variant.select nullable variants selector = some .empty ∧ below = .zero 32) ∨
        ∃ f body, Variant.select nullable variants selector = some (.body f) ∧
          a.body? v = some body ∧ Gives (f.rootRecorded hasher body) below ps) := by
  rw [rootRecorded, bare] at h
  simp only [recorders_eq, Variant.select_map] at h
  obtain ⟨selector, hs, next⟩ := gives_bind_except.mp h
  cases chosen : Variant.select nullable variants selector with
  | none =>
    rw [chosen] at next
    cases next
  | some variant =>
    rw [chosen] at next
    cases variant with
    | empty =>
      obtain ⟨rfl, rfl⟩ := gives_recorded.mp next
      exact ⟨selector, .zero 32, [], hs, rfl, rfl, .inl ⟨chosen, rfl⟩⟩
    | body f =>
      obtain ⟨body, hbody, hashed⟩ := gives_bind_except.mp next
      obtain ⟨below, ps, _, hbelow, mixed, rfl⟩ := gives_bind.mp hashed
      obtain ⟨rfl, rfl⟩ := gives_recorded.mp mixed
      exact ⟨selector, below, ps, hs, rfl, rfl,
        .inr ⟨f, body, chosen, bodyOf_eq_ok.mp hbody, hbelow⟩⟩

theorem recorded_container {a : Handler ContainerAccessor} (bare : v.root? = none)
    (h : Gives ((container head a fields size).rootRecorded hasher v) r pairs) :
    ∃ (values : List Value) (outs : List (Root × List (Root × Root))), a.fields v = .ok values ∧
      Aligned (fun f value out => Gives (f.rootRecorded hasher value) out.1 out.2) fields values outs ∧
      r = hasher.merkleize (outs.map (·.1)) none ∧
      pairs = outs.flatMap (·.2) ++ (Recorded.merkleize hasher (outs.map (·.1)) none).pairs := by
  rw [rootRecorded, bare] at h
  simp only [recorders_eq] at h
  obtain ⟨w, hw, taken⟩ := gives_bind_except.mp h
  obtain ⟨values, hvalues, checked⟩ := gives_bind_except.mp taken
  obtain ⟨done, hcheck, hashed⟩ := gives_bind_except.mp checked
  obtain ⟨roots, _, _, hroots, tree, rfl⟩ := gives_bind.mp hashed
  obtain ⟨outs, each, rfl, rfl⟩ := (gives_zip_mapM (checkArity_eq_ok.mp hcheck)).mp hroots
  obtain ⟨rfl, rfl⟩ := gives_recorded.mp tree
  rw [seen_eq_ok, concrete_of_root? bare] at hw
  cases hw
  exact ⟨values, outs, hvalues, each, Recorded.result_merkleize _ _ _, rfl⟩

end Node

end Format

end SimpleSerialize
