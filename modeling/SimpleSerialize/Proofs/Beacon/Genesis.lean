/-
The state that a chain starts from.

The lengths of the histories of a state are size variables, and so are the bounds of its lists.  The
genesis state takes the lengths of its histories from a table of values, and hashing a state takes
them from the codec.  Where both use one table, the genesis state has a root, and it goes on having
one as its lists grow within their bounds, while no history may grow or shrink.  Main statements:

* `Beacon.validate_state`: hashing a state checks six lengths and nothing else;
* `Beacon.State.validate_ok`, `Beacon.State.validate_blockRoots` and so on: what the checks find;
* `Beacon.root_genesis`: the genesis state and the codec of one table.
-/
import SimpleSerialize.Proofs.Beacon.Header
import SimpleSerialize.Proofs.InstanceRoots

namespace SimpleSerialize

/-- Checks of elements that all pass add nothing. -/
theorem forM_ok_right {ε α : Type} {check : α → Except ε Unit} (first : Except ε Unit)
    (free : ∀ a, check a = .ok ()) (as : List α) :
    (first >>= fun _ => as.forM check) = first := by
  have all : as.forM check = .ok () := by
    induction as with
    | nil => rfl
    | cons a as ih =>
      show (check a >>= fun _ => as.forM check) = .ok ()
      rw [free a, ok_bind, ih]
  rw [all]
  exact bind_pure first

namespace Beacon

open Builder Codec Model

variable {catalog : Catalog} {hasher : Hasher} {c : Codec} {shape : ShapeId}
  {sizes : String → Option UInt64} {s : State}

/-! ### Lengths -/

/-- The name of the shape of a history of a length that is known by name. -/
abbrev historyName (length : String) : String := (Model.sizedVector root length).shapeName

namespace State

/-- The checks that hashing a state makes: the lengths of its histories and lists. -/
def validate (sizes : String → Option UInt64) (s : State) : Except EncodeError Unit := do
  let history (name : String) (roots : List Root) :=
    validateSize sizes .vector name (historyName name) roots.length
  let limited (name : String) (element : Model) (xs : List element.Instance) :=
    validateSize sizes (fun n => .list (some n)) name (Model.sizedList element name).shapeName
      xs.length
  history slotsPerHistoricalRoot s.blockRoots
  history slotsPerHistoricalRoot s.stateRoots
  limited historicalRootsLimit root s.historicalRoots
  limited validatorRegistryLimit validator s.validators
  limited validatorRegistryLimit gwei s.balances
  history epochsPerHistoricalVector s.randaoMixes

/-- The values of the size variables of a state. -/
structure Bounds (sizes : String → Option UInt64) where
  slots : UInt64
  epochs : UInt64
  roots : UInt64
  registry : UInt64
  slots_eq : sizes slotsPerHistoricalRoot = some slots
  epochs_eq : sizes epochsPerHistoricalVector = some epochs
  roots_eq : sizes historicalRootsLimit = some roots
  registry_eq : sizes validatorRegistryLimit = some registry

/-- A state whose histories have their lengths and whose lists are within their bounds. -/
structure Within (bounds : Bounds sizes) (s : State) : Prop where
  blockRoots : s.blockRoots.length = bounds.slots.toNat
  stateRoots : s.stateRoots.length = bounds.slots.toNat
  randaoMixes : s.randaoMixes.length = bounds.epochs.toNat
  historicalRoots : s.historicalRoots.length ≤ bounds.roots.toNat
  validators : s.validators.length ≤ bounds.registry.toNat
  balances : s.balances.length ≤ bounds.registry.toNat

/-- A state with more in its lists. -/
def extend (s : State) (roots : List Root) (validators : List validator.Instance)
    (balances : List Word) : State :=
  { s with
    historicalRoots := s.historicalRoots ++ roots
    validators := s.validators ++ validators
    balances := s.balances ++ balances }

end State

/-- Hashing a state checks nothing else. -/
theorem validate_state (sizes : String → Option UInt64) (s : State) :
    Beacon.state.validate sizes state.shapeName s.toInstance = s.validate sizes := by
  have history (length : String) (xs : List Root) :
      (Model.sizedVector root length).validate sizes (historyName length) xs =
        validateSize sizes .vector length (historyName length) xs.length :=
    forM_ok_right _ (fun _ => rfl) xs
  have limited (m : Model) (free : ∀ x, m.validate sizes m.shapeName x = .ok ()) (limit : String)
      (xs : List m.Instance) :
      (Model.sizedList m limit).validate sizes (Model.sizedList m limit).shapeName xs =
        validateSize sizes (fun n => .list (some n)) limit (Model.sizedList m limit).shapeName
          xs.length :=
    forM_ok_right _ free xs
  -- All other fields have passed before anything is looked at.
  show (do
    (Model.sizedVector root slotsPerHistoricalRoot).validate sizes _ s.blockRoots
    (Model.sizedVector root slotsPerHistoricalRoot).validate sizes _ s.stateRoots
    (Model.sizedList root historicalRootsLimit).validate sizes _ s.historicalRoots
    (Model.sizedList validator validatorRegistryLimit).validate sizes _ s.validators
    (Model.sizedList gwei validatorRegistryLimit).validate sizes _ s.balances
    (Model.sizedVector root epochsPerHistoricalVector).validate sizes _ s.randaoMixes
    return ()) = _
  rw [history, history, limited root (fun _ => rfl) historicalRootsLimit s.historicalRoots,
    limited validator (fun _ => rfl) validatorRegistryLimit s.validators,
    limited gwei (fun _ => rfl) validatorRegistryLimit s.balances, history, bind_pure]
  rfl

namespace State

variable {bounds : Bounds sizes}

/-- The checks, where the size variables have values. -/
theorem validate_eq (bounds : Bounds sizes) (s : State) : s.validate sizes = (do
    (Regime.vector bounds.slots).check (historyName slotsPerHistoricalRoot) s.blockRoots.length
    (Regime.vector bounds.slots).check (historyName slotsPerHistoricalRoot) s.stateRoots.length
    (Regime.list bounds.roots).check (Model.sizedList root historicalRootsLimit).shapeName
      s.historicalRoots.length
    (Regime.list bounds.registry).check (Model.sizedList validator validatorRegistryLimit).shapeName
      s.validators.length
    (Regime.list bounds.registry).check (Model.sizedList gwei validatorRegistryLimit).shapeName
      s.balances.length
    (Regime.vector bounds.epochs).check (historyName epochsPerHistoricalVector)
      s.randaoMixes.length) := by
  simp only [validate, validateSize, bounds.slots_eq, bounds.epochs_eq, bounds.roots_eq,
    bounds.registry_eq]
  rfl

theorem validate_ok (within : s.Within bounds) : s.validate sizes = .ok () := by
  rw [validate_eq bounds]
  simp only [Regime.check, within.blockRoots, within.stateRoots, within.randaoMixes,
    within.historicalRoots, within.validators, within.balances, if_true, ok_bind]

variable {roots : List Root}

theorem validate_blockRoots (other : roots.length ≠ bounds.slots.toNat) :
    { s with blockRoots := roots }.validate sizes =
      .error (.vectorLength (historyName slotsPerHistoricalRoot)
        (.wrongLength bounds.slots.toNat roots.length)) := by
  rw [validate_eq bounds]
  simp only [Regime.check, if_neg other]
  rfl

theorem validate_stateRoots (within : s.Within bounds)
    (other : roots.length ≠ bounds.slots.toNat) :
    { s with stateRoots := roots }.validate sizes =
      .error (.vectorLength (historyName slotsPerHistoricalRoot)
        (.wrongLength bounds.slots.toNat roots.length)) := by
  rw [validate_eq bounds]
  simp only [Regime.check, within.blockRoots, if_true, ok_bind, if_neg other]
  rfl

theorem validate_randaoMixes (within : s.Within bounds)
    (other : roots.length ≠ bounds.epochs.toNat) :
    { s with randaoMixes := roots }.validate sizes =
      .error (.vectorLength (historyName epochsPerHistoricalVector)
        (.wrongLength bounds.epochs.toNat roots.length)) := by
  -- This history comes last, after everything else has been found right.
  rw [validate_eq bounds]
  simp only [Regime.check, within.blockRoots, within.stateRoots, within.historicalRoots,
    within.validators, within.balances, if_true, ok_bind, if_neg other]

/-! ### The genesis state -/

/-- A table that has values for the histories has a genesis state, with nothing in its lists. -/
theorem exists_genesis (bounds : Bounds sizes) (time : Word) :
    ∃ s, genesis sizes time = .ok s ∧ s.historicalRoots = [] ∧ s.validators = [] ∧
      s.balances = [] ∧ s.Within bounds := by
  have slots : history sizes slotsPerHistoricalRoot =
      .ok (List.replicate bounds.slots.toNat (.zero 32)) := by
    rw [State.history, SizeVars.require, bounds.slots_eq]
    rfl
  have epochs : history sizes epochsPerHistoricalVector =
      .ok (List.replicate bounds.epochs.toNat (.zero 32)) := by
    rw [State.history, SizeVars.require, bounds.epochs_eq]
    rfl
  rw [genesis, slots, epochs]
  exact ⟨_, rfl, rfl, rfl, rfl, List.length_replicate, List.length_replicate,
    List.length_replicate, Nat.zero_le _, Nat.zero_le _, Nat.zero_le _⟩

/-- A state stays within its bounds if there is room for what is put into its lists. -/
theorem Within.extend (within : s.Within bounds) {roots : List Root}
    {validators : List validator.Instance} {balances : List Word}
    (room : s.historicalRoots.length + roots.length ≤ bounds.roots.toNat)
    (room' : s.validators.length + validators.length ≤ bounds.registry.toNat)
    (room'' : s.balances.length + balances.length ≤ bounds.registry.toNat) :
    (s.extend roots validators balances).Within bounds where
  blockRoots := within.blockRoots
  stateRoots := within.stateRoots
  randaoMixes := within.randaoMixes
  historicalRoots := List.length_append ▸ room
  validators := List.length_append ▸ room'
  balances := List.length_append ▸ room''

end State

/-! ### The codec of one table -/

theorem narrow_state : state.Narrow := by repeat constructor

/-- What a codec says is the root of a state. -/
abbrev State.rootBy (c : Codec) (s : State) : Except CodecError Root :=
  ((rootOfModel state s.toInstance).run c).1

/-- How hashing a state fails where a history has another length than it should have. -/
abbrev historyError (length : String) (expected : UInt64) (history : List Root) : CodecError :=
  .encode (.vectorLength (historyName length) (.wrongLength expected.toNat history.length))

section Declared

variable (wf : catalog.schema.WellFormed) (declared : state.DeclaredIn catalog.schema shape)
  (resolves : catalog.Resolves (catalog.schema.descriptor shape))
include wf declared resolves

/-- Where the shape of states resolves, the size variables of a state have values. -/
theorem exists_bounds : Nonempty (State.Bounds catalog.sizes) := by
  obtain ⟨f, resolved⟩ := resolves
  rw [Catalog.format, ← Schema.use_none] at resolved
  have valid := state.validates wf narrow_state declared (declared.sameTarget wf) resolved
  obtain ⟨slots, slots_eq⟩ := valid.known slotsPerHistoricalRoot (by decide)
  obtain ⟨epochs, epochs_eq⟩ := valid.known epochsPerHistoricalVector (by decide)
  obtain ⟨roots, roots_eq⟩ := valid.known historicalRootsLimit (by decide)
  obtain ⟨registry, registry_eq⟩ := valid.known validatorRegistryLimit (by decide)
  exact ⟨⟨slots, epochs, roots, registry, slots_eq, epochs_eq, roots_eq, registry_eq⟩⟩

/-- A state has a root exactly if it passes the checks of lengths. -/
theorem verdict_rootBy (session : Session catalog hasher c) (s : State) :
    verdict (s.rootBy c) = (s.validate catalog.sizes).mapError .encode := by
  rw [← validate_state]
  exact verdict_rootOfModel wf session narrow_state declared resolves s.toInstance

/-- The root of a state is the same for all codecs of the table. -/
theorem exists_rootBy {bounds : State.Bounds catalog.sizes} (within : s.Within bounds) :
    ∃ r, ∀ c, Session catalog hasher c → s.rootBy c = .ok r := by
  have passed := verdict_rootBy wf declared resolves (.start : Session catalog hasher _) s
  rw [State.validate_ok within] at passed
  obtain ⟨r, hashed⟩ := verdict_eq_ok.mp passed
  exact ⟨r, fun c session => (rootOfModel_eq_ok wf session declared).mpr
    ((rootOfModel_eq_ok wf .start declared).mp hashed)⟩

theorem rootBy_eq_error (session : Session catalog hasher c) {e : EncodeError}
    (refused : s.validate catalog.sizes = .error e) : s.rootBy c = .error (.encode e) := by
  refine verdict_eq_error.mp ?_
  rw [verdict_rootBy wf declared resolves session, refused]
  rfl

end Declared

/-- A block has to name the root of the state, which has to have one. -/
theorem run_verifyStateRoot (s : State) (b : Block) (c : Codec) :
    ((verifyStateRoot s b).run c).1 = (do
      let r ← (s.rootBy c).mapError .codec
      if r = b.stateRoot then .ok () else .error (.stateRoot b.stateRoot r)) := by
  have compared (r : Root) :
      (if r = b.stateRoot then pure () else throw (VerifyError.stateRoot b.stateRoot r) :
        CodecM VerifyError Unit) =
        liftM (if r = b.stateRoot then Except.ok ()
          else Except.error (VerifyError.stateRoot b.stateRoot r)) := by
    split <;> rfl
  simp only [verifyStateRoot, compared]
  exact run_bind_liftM _ _

theorem verifyStateRoot_eq_ok {r : Root} (hashed : s.rootBy c = .ok r) (b : Block) :
    ((verifyStateRoot s b).run c).1 = .ok () ↔ b.stateRoot = r := by
  rw [run_verifyStateRoot, hashed]
  show (if r = b.stateRoot then Except.ok () else Except.error _) = Except.ok () ↔ _
  split
  · exact iff_of_true rfl (Eq.symm ‹_›)
  · exact iff_of_false nofun fun named => absurd named.symm ‹_›

/-- Whatever the size variables are, if the shape of states resolves then there is a genesis state
of any time, a codec of the same size variables hashes it, and exactly the blocks that name its root
stand for it.  Whatever is put into its lists within their bounds, the state has a root, and has
none with a history of another length. -/
theorem root_genesis {log : List (Request × ShapeId)} {b : Builder} (reached : Reached log b)
    (built : b.build = .ok catalog.schema) (registered : (.register state, shape) ∈ log)
    (resolves : catalog.Resolves (catalog.schema.descriptor shape)) (hasher : Hasher)
    (time : Word) :
    ∃ (bounds : State.Bounds catalog.sizes) (s : State) (r : Root),
      State.genesis catalog.sizes time = .ok s ∧
      (∀ c, Session catalog hasher c → s.rootBy c = .ok r ∧
        ∀ block, ((verifyStateRoot s block).run c).1 = .ok () ↔ block.stateRoot = r) ∧
      ∀ roots validators balances, roots.length ≤ bounds.roots.toNat →
        validators.length ≤ bounds.registry.toNat → balances.length ≤ bounds.registry.toNat →
        let s' := s.extend roots validators balances
        (∃ r', ∀ c, Session catalog hasher c → s'.rootBy c = .ok r') ∧
        ∀ c, Session catalog hasher c → ∀ history : List Root,
          (history.length ≠ bounds.slots.toNat →
            { s' with blockRoots := history }.rootBy c =
              .error (historyError slotsPerHistoricalRoot bounds.slots history) ∧
            { s' with stateRoots := history }.rootBy c =
              .error (historyError slotsPerHistoricalRoot bounds.slots history)) ∧
          (history.length ≠ bounds.epochs.toNat →
            { s' with randaoMixes := history }.rootBy c =
              .error (historyError epochsPerHistoricalVector bounds.epochs history)) := by
  obtain ⟨wf, declared⟩ := reached.declaredIn built registered
  obtain ⟨bounds⟩ := exists_bounds wf declared resolves
  obtain ⟨s, made, noRoots, noValidators, noBalances, within⟩ := State.exists_genesis bounds time
  obtain ⟨r, hashed⟩ := exists_rootBy wf declared resolves within
  refine ⟨bounds, s, r, made, fun c session => ⟨hashed c session,
    verifyStateRoot_eq_ok (hashed c session)⟩,
    fun roots validators balances room room' room'' => ?_⟩
  have grown : (s.extend roots validators balances).Within bounds := by
    refine within.extend ?_ ?_ ?_
    · simpa [noRoots] using room
    · simpa [noValidators] using room'
    · simpa [noBalances] using room''
  have fails {c : Codec} (session : Session catalog hasher c) {s : State} {e : EncodeError} :=
    @rootBy_eq_error _ _ _ _ s wf declared resolves session e
  refine ⟨exists_rootBy wf declared resolves grown, fun c session history =>
    ⟨fun other => ⟨?_, ?_⟩, fun other => ?_⟩⟩
  · exact fails session (State.validate_blockRoots other)
  · exact fails session (State.validate_stateRoots grown other)
  · exact fails session (State.validate_randaoMixes grown other)

/-- The table of the beacon chain, under small values of its size variables. -/
theorem root_genesis_small :
    let s := (Beacon.schema.toOption).getD {}
    let hasher : Hasher := ⟨fun l r => .padded 32 (List.zipWith (· + 2 * ·) l.bytes r.bytes), _, rfl⟩
    let few := (mainnet.insert slotsPerHistoricalRoot 8).insert epochsPerHistoricalVector 4
    let sizes := (few.insert validatorRegistryLimit 2).find?
    let c : Codec := { catalog := { schema := s, sizes }, hasher }
    ∃ (start : State) (r : Root), State.genesis sizes 5 = .ok start ∧ start.rootBy c = .ok r ∧
      ((verifyStateRoot start { Block.genesis with slot := 1, stateRoot := r }).run c).1 = .ok () ∧
      (∃ r', (start.extend [r] [] [3, 2]).rootBy c = .ok r') ∧
      { start.extend [r] [] [3, 2] with stateRoots := [r, r, r] }.rootBy c =
        .error (historyError slotsPerHistoricalRoot 8 [r, r, r]) := by
  intro s hasher few sizes c
  have ok {ε α : Type} {x : Except ε α} (h : x.toOption.isSome = true) : ∃ a, x = .ok a := by
    cases x with
    | error e => cases h
    | ok a => exact ⟨a, rfl⟩
  have computed : Beacon.schema.toOption.isSome = true ∧
      (s.require state.shapeName >>= fun shape =>
        c.catalog.format (s.descriptor shape)).toOption.isSome = true ∧
      sizes slotsPerHistoricalRoot = some 8 ∧ sizes historicalRootsLimit = some 0x1000000 ∧
      sizes validatorRegistryLimit = some 2 := by
    decide +kernel
  obtain ⟨table, found, eight, limit, two⟩ := computed
  have built : Beacon.schema = .ok s := by
    obtain ⟨t, h⟩ := ok table
    show Beacon.schema = .ok ((Beacon.schema.toOption).getD {})
    rw [h]
    rfl
  -- The table is not needed any more, and stays closed.
  clear_value s
  rw [schema_eq, Model.tableOf_eq] at built
  obtain ⟨log, reached, -, each⟩ := @Model.reached_registered
    [state, block, blockHeader, blockRootsRequest, blockBodiesResponse] {} [] .start
  obtain ⟨shape, call⟩ := each state List.mem_cons_self
  obtain ⟨wf, declared⟩ := reached.declaredIn built call
  rw [declared.require_eq wf, ok_bind] at found
  obtain ⟨bounds, start, r, made, hashed, grown⟩ :=
    @root_genesis c.catalog shape log _ reached built call (ok found) hasher 5
  have slots : bounds.slots = 8 := Option.some.inj (bounds.slots_eq.symm.trans eight)
  have roots : bounds.roots = 0x1000000 := Option.some.inj (bounds.roots_eq.symm.trans limit)
  have registry : bounds.registry = 2 := Option.some.inj (bounds.registry_eq.symm.trans two)
  rw [slots, roots, registry] at grown
  obtain ⟨rooted, accepts⟩ := hashed c .start
  obtain ⟨⟨r', again⟩, misfit⟩ := grown [r] [] [3, 2] (show 1 ≤ 0x1000000 by decide)
    (Nat.zero_le _) (Nat.le_refl 2)
  exact ⟨start, r, made, rooted, (accepts _).mpr rfl, ⟨r', again c .start⟩,
    ((misfit c .start [r, r, r]).1 (show 3 ≠ 8 by decide)).2⟩

end Beacon

end SimpleSerialize
