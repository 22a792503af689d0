/-
The shapes that errors name.

What is wrong at a node is found by the walk, which knows the shape of the node, or by the accessor,
which at a subclass is handed the shape at the end of the chain and goes by the name of that.  Some
faults are those of a node itself, whatever its parts hold: `Format.checkValue` and
`Format.checkBytes` look for these, and are told under which name each of the two goes.  Main
statements:

* `Format.checkValue_names`, `Format.checkBytes_names`: what the walk finds names the one shape, and
  what the accessor finds names the other;
* `Format.encode_opens`, `Format.root_opens`, `Format.decode_opens`: faults of the node itself come
  first, and after them only those of parts, of large offsets, and of values that a link refuses;
* `Codec.faults_of_subclass`: the same of codecs, for shapes at both ends of a chain.
-/
import SimpleSerialize.Proofs.Acceptance
import SimpleSerialize.Proofs.FixedSize
import SimpleSerialize.Proofs.Links
import SimpleSerialize.Proofs.ListAccessors
import SimpleSerialize.Proofs.Truthful

namespace SimpleSerialize

/-! ### Names in errors -/

namespace EncodeError

/-- The shape that an error names. -/
def shape : EncodeError → String
  | vectorLength shape _ | maxSize shape _ | byteWidth shape _ | integerOverflow shape _ => shape
  | valueMismatch shape _ _ | unionSelector shape _ | pruned shape => shape
  | rangeOutOfBounds shape _ _ _ => shape

/-- What a value can lack that has the right kind. -/
def lacks : List String := ["one value per declared field", "union body"]

/-- The accessor finds the fault, and not the walk. -/
def byAccessor : EncodeError → Bool
  | byteWidth _ _ | integerOverflow _ _ => true
  | valueMismatch _ expected _ => expected ∉ lacks
  | _ => false

/-- An error goes by the name of the walk or by that of the accessor, whichever raises it. -/
def Names (walk accessor : String) (e : EncodeError) : Prop :=
  e.shape = if e.byAccessor then accessor else walk

theorem names_mismatch {walk accessor expected found : String} (kind : expected ∉ lacks) :
    Names walk accessor (.valueMismatch accessor expected found) := by
  have raised : byAccessor (.valueMismatch accessor expected found) = true := decide_eq_true kind
  rw [Names, raised]
  rfl

end EncodeError

namespace DecodeError

/-- The shape, or the model, that an error names. -/
def shape : DecodeError → String
  | truncated shape _ _ | trailing shape _ | malformedOffset shape _ _ _ => shape
  | unionSelector shape _ | invalidBasic shape _ | maxSize shape _ | rejected shape _ => shape
  | modelMismatch model _ _ => model

/-- The accessor finds the fault, and not the walk. -/
def byAccessor : DecodeError → Bool
  | invalidBasic _ _ => true
  | _ => false

/-- An error goes by the name of the walk or by that of the accessor, whichever raises it. -/
def Names (walk accessor : String) (e : DecodeError) : Prop :=
  e.shape = if e.byAccessor then accessor else walk

end DecodeError

section Accessors

open EncodeError

variable {walk accessor : String}

theorem BasicForm.encodeInteger_names (width n : Nat) :
    FailsOnly (Names walk accessor) (encodeInteger accessor width n) :=
  .ite (fun _ => failsOnly_ok _) fun _ => failsOnly_error rfl

theorem BasicForm.encode_names (form : BasicForm) (v : Value) :
    FailsOnly (Names walk accessor) (form.encode accessor v) := by
  unfold BasicForm.encode
  split
  · exact failsOnly_ok _
  · exact failsOnly_error (names_mismatch (by decide))
  · exact encodeInteger_names _ _
  · exact encodeInteger_names _ _
  · exact failsOnly_error (names_mismatch (by decide))
  · exact .ite (fun _ => failsOnly_ok _) fun _ => failsOnly_error rfl
  · exact failsOnly_error (names_mismatch (by decide))

theorem BasicForm.decode_names (form : BasicForm) (bytes : Bytes) :
    FailsOnly (DecodeError.Names walk accessor) (form.decode accessor bytes) := by
  unfold BasicForm.decode
  split
  · exact failsOnly_ok _
  · exact failsOnly_ok _
  · exact failsOnly_error rfl
  · exact .ite (fun _ => failsOnly_ok _) fun _ => failsOnly_ok _
  · exact failsOnly_ok _

theorem ListAccessor.items_names (a : ListAccessor) (v : Value) :
    FailsOnly (Names walk accessor) (a.items accessor v) := by
  unfold ListAccessor.items
  split
  · exact failsOnly_ok _
  · exact failsOnly_error (names_mismatch (by decide))
  · exact failsOnly_ok _
  · exact failsOnly_ok _
  · exact failsOnly_error (names_mismatch (by decide))

theorem UnionAccessor.selector_names (a : UnionAccessor) (v : Value) :
    FailsOnly (Names walk accessor) (a.selector accessor v) := by
  unfold UnionAccessor.selector
  split
  · exact failsOnly_ok _
  · exact failsOnly_error (names_mismatch (by decide))

theorem ContainerAccessor.fieldsOf_names (a : ContainerAccessor) (v : Value) :
    FailsOnly (Names walk accessor) (a.fieldsOf accessor v) := by
  unfold ContainerAccessor.fieldsOf
  split
  · exact failsOnly_ok _
  · exact failsOnly_error (names_mismatch (by decide))

end Accessors

/-! ### Names in layouts -/

namespace Layout

open DecodeError

variable {walk accessor : String} {bytes : Bytes}

theorem checkOffset_names (fixed total index : Nat) (previous : Option Nat) (offset : Nat) :
    FailsOnly (Names walk accessor) (checkOffset walk fixed total index previous offset) := by
  cases previous with
  | none => exact .ite (fun _ => failsOnly_ok ()) fun _ => failsOnly_error rfl
  | some previous =>
    refine .ite (fun _ => failsOnly_error rfl) fun _ => ?_
    exact .ite (fun _ => failsOnly_error rfl) fun _ => failsOnly_ok ()

theorem slots_names (fixed total index : Nat) (previous : Option Nat) (sizes : List (Option Nat))
    (bytes : Bytes) :
    FailsOnly (Names walk accessor) (slots walk fixed total index previous sizes bytes) := by
  induction sizes generalizing index previous bytes with
  | nil => exact failsOnly_ok []
  | cons size sizes ih =>
    cases size with
    | some width => exact (ih _ _ _).bind fun rest => failsOnly_ok _
    | none =>
      refine (checkOffset_names _ _ _ _ _).bind fun _ => ?_
      exact (ih _ _ _).bind fun rest => failsOnly_ok _

theorem windows_names (sizes : List (Option Nat)) :
    FailsOnly (Names walk accessor) (windows walk sizes bytes) := by
  refine .ite (fun _ => failsOnly_error rfl) fun _ => (slots_names _ _ _ _ _ _).bind fun _ => ?_
  exact .ite (fun _ => failsOnly_error rfl) fun _ => failsOnly_ok _

theorem checkLimit_names (regime : Regime) (count : Nat) :
    FailsOnly (Names walk accessor) (regime.checkLimit walk count) := by
  unfold Regime.checkLimit
  split
  · exact .ite (fun _ => failsOnly_ok ()) fun _ => failsOnly_error rfl
  · exact failsOnly_ok ()

theorem fixedCount_names (regime : Regime) (width : Nat) :
    FailsOnly (Names walk accessor) (fixedCount walk regime width bytes) := by
  cases regime with
  | vector length =>
    refine .ite (fun _ => failsOnly_error rfl) fun _ => ?_
    exact .ite (fun _ => failsOnly_error rfl) fun _ => failsOnly_ok _
  | list limit =>
    refine .ite (fun _ => .ite (fun _ => failsOnly_ok 0) fun _ => failsOnly_error rfl) fun _ => ?_
    exact .ite (fun _ => failsOnly_ok _) fun _ => failsOnly_error rfl

theorem offsetCount_names (regime : Regime) :
    FailsOnly (Names walk accessor) (offsetCount walk regime bytes) := by
  unfold offsetCount
  split
  · exact failsOnly_ok 0
  -- Too short for an offset, a first offset that counts nothing, one beyond the end, or a count.
  refine .ite (fun _ => ?_) fun _ => .ite (fun _ => failsOnly_error rfl) fun _ =>
    .ite (fun _ => failsOnly_error rfl) fun _ => ?_
  · split <;> exact failsOnly_error rfl
  · split
    · exact .ite (fun _ => failsOnly_ok _) fun _ => failsOnly_error rfl
    · exact failsOnly_ok _

theorem elementWindows_names (regime : Regime) (size : Option Nat) :
    FailsOnly (Names walk accessor) (elementWindows walk regime size bytes) := by
  cases size with
  | some width =>
    refine (fixedCount_names regime width).bind fun count => ?_
    exact (checkLimit_names regime count).bind fun _ => failsOnly_ok _
  | none =>
    refine (offsetCount_names regime).bind fun count => ?_
    exact (checkLimit_names regime count).bind fun _ => windows_names _

/-- Composing fails as a child does, or where an offset is too large. -/
theorem compose_failsOnly {P : EncodeError → Prop} {shape : String}
    {children : List (Option Nat × Except EncodeError Bytes)}
    (each : ∀ child ∈ children, FailsOnly P child.2)
    (large : ∀ offset, maxOffset < offset → P (.maxSize shape (.tooLong maxOffset offset))) :
    FailsOnly P (compose shape children) := by
  have placed (position : Nat) : FailsOnly P (place shape position children) := by
    induction children generalizing position with
    | nil => exact failsOnly_ok _
    | cons child rest ih =>
      obtain ⟨first, others⟩ := List.forall_mem_cons.mp each
      obtain ⟨size, body⟩ := child
      cases size with
      | some width =>
        exact first.bind fun bytes => (ih others position).bind fun _ => failsOnly_ok _
      | none =>
        refine .ite (fun _ => ?_) fun beyond => failsOnly_error (large _ (Nat.lt_of_not_le beyond))
        exact first.bind fun bytes => (ih others _).bind fun _ => failsOnly_ok _
  exact (placed _).bind fun _ => failsOnly_ok _

end Layout

/-! ### Checks that come first -/

section Opening

variable {ε α β : Type} {P : ε → Prop} {x : Except ε α}

theorem FailsOnly.bind_of {next : α → Except ε β} (h : FailsOnly P x)
    (rest : ∀ a, x = .ok a → FailsOnly P (next a)) : FailsOnly P (x >>= next) := by
  cases x with
  | ok a => exact rest a rfl
  | error e => exact failsOnly_error (h e rfl)

theorem FailsOnly.verdict (h : FailsOnly P x) : FailsOnly P (verdict x) := h.map

/-- A computation fails if some check does, with the same error, and else with an error of some
kind. -/
structure Opens (check : Except ε Unit) (P : ε → Prop) (x : Except ε α) : Prop where
  first : ∀ e, check = .error e → x = .error e
  rest : check = .ok () → FailsOnly P x

theorem Opens.of_failsOnly (h : FailsOnly P x) : Opens (.ok ()) P x := ⟨nofun, fun _ => h⟩

theorem Opens.error (e : ε) : Opens (.error e) P (.error e : Except ε α) :=
  ⟨fun _ h => by cases h; rfl, nofun⟩

theorem Opens.bind {y : Except ε β} {check : β → Except ε Unit} {next : β → Except ε α}
    (each : ∀ b, y = .ok b → Opens (check b) P (next b)) : Opens (y >>= check) P (y >>= next) := by
  cases y with
  | ok b => exact each b rfl
  | error e => exact .error e

/-- A check that says whether a step succeeds comes first if the step does. -/
theorem Opens.verdict_bind {y : Except ε β} {next : β → Except ε α}
    (each : ∀ b, y = .ok b → FailsOnly P (next b)) : Opens (verdict y) P (y >>= next) := by
  cases y with
  | ok b => exact .of_failsOnly (each b rfl)
  | error e => exact .error e

theorem Opens.verdict : Opens (verdict x) P x := by
  cases x with
  | ok a => exact .of_failsOnly (failsOnly_ok a)
  | error e => exact .error e

theorem Opens.check_bind {check : Except ε Unit} {next : Unit → Except ε α}
    (after : FailsOnly P (next ())) : Opens check P (check >>= next) := by
  cases check with
  | ok => exact .of_failsOnly after
  | error e => exact .error e

theorem Opens.ite {check check' : Except ε Unit} {y : Except ε α} {p : Prop} [Decidable p]
    (yes : p → Opens check P x) (no : ¬p → Opens check' P y) :
    Opens (if p then check else check') P (if p then x else y) := by
  split
  · exact yes ‹_›
  · exact no ‹_›

end Opening

/-! ### Faults of a node -/

namespace Format

open Layout

/-- Checks a value for what is wrong with it at the node, whatever its parts are. -/
def checkValue (walk accessor : String) : Format → Value → Except EncodeError Unit
  | basic _ a, v => do
    let w ← seen walk v
    verdict (a.base.encode accessor w)
  | list _ a regime _, v => do
    let items ← a.base.items accessor (← seen walk v)
    regime.check walk items.length
  | union _ a nullable variants, v => do
    let w ← seen walk v
    let selector ← a.base.selector accessor w
    match Variant.select nullable variants selector with
    | none => .error (.unionSelector walk selector)
    | some .empty => .ok ()
    | some (.body _) => verdict (bodyOf walk (a.body? w))
  | container _ a fields _, v => do
    let values ← a.base.fieldsOf accessor (← seen walk v)
    checkArity walk fields.length values.length

/-- Checks bytes for what is wrong with them at the node, whatever its parts are read from. -/
def checkBytes (walk accessor : String) : Format → Bytes → Except DecodeError Unit
  | basic _ a, bytes => do
    checkSize walk a.base.size bytes.length
    verdict (a.base.decode accessor bytes)
  | list _ _ regime element, bytes => verdict (elementWindows walk regime element.fixedSize bytes)
  | union _ _ nullable variants, bytes =>
    if bytes.length < offsetSize then .error (.truncated walk offsetSize bytes.length)
    else match Variant.select nullable variants (UInt32.ofNat (readOffset bytes)) with
      | none => .error (.unionSelector walk (UInt32.ofNat (readOffset bytes)))
      | some .empty =>
        if (bytes.drop offsetSize).isEmpty then .ok ()
        else .error (.trailing walk (bytes.drop offsetSize).length)
      | some (.body _) => .ok ()
  | container _ _ fields _, bytes => verdict (windows walk (fields.map fixedSize) bytes)

/-- A format is to write a value as a part of the value of another. -/
inductive PartOf : Format → Value → Format → Value → Prop
  | item {head : Heading} {a : Handler ListAccessor} {regime : Regime} {element : Format}
    {v w : Value} {items : List Value} {item : Value} : v.concrete = some w →
    a.items w = .ok items → item ∈ items → PartOf (list head a regime element) v element item
  | body {head : Heading} {a : Handler UnionAccessor} {nullable : Bool} {variants : List Format}
    {g : Format} {v w body : Value} {selector : UInt32} : v.concrete = some w →
    a.selector w = .ok selector → Variant.select nullable variants selector = some (.body g) →
    a.body? w = some body → PartOf (union head a nullable variants) v g body
  | field {head : Heading} {a : Handler ContainerAccessor} {fields : List Format}
    {size : Option Nat} {g : Format} {v w field : Value} {values : List Value} :
    v.concrete = some w → a.fields w = .ok values → (g, field) ∈ fields.zip values →
    PartOf (container head a fields size) v g field

/-- A format is to read a window of the bytes that another reads. -/
inductive WindowOf : Format → Bytes → Format → Bytes → Prop
  | item {head : Heading} {a : Handler ListAccessor} {regime : Regime} {element : Format}
    {bytes window : Bytes} {found : List Bytes} :
    elementWindows head.name regime element.fixedSize bytes = .ok found → window ∈ found →
    WindowOf (list head a regime element) bytes element window
  | body {head : Heading} {a : Handler UnionAccessor} {nullable : Bool} {variants : List Format}
    {g : Format} {bytes : Bytes} :
    Variant.select nullable variants (UInt32.ofNat (readOffset bytes)) = some (.body g) →
    WindowOf (union head a nullable variants) bytes g (bytes.drop offsetSize)
  | field {head : Heading} {a : Handler ContainerAccessor} {fields : List Format}
    {size : Option Nat} {g : Format} {bytes window : Bytes} {found : List Bytes} :
    windows head.name (fields.map fixedSize) bytes = .ok found → (g, window) ∈ fields.zip found →
    WindowOf (container head a fields size) bytes g window

/-- An element of a sequence that is held as a byte string is read as a byte. -/
def ReadsBytes : Format → Prop
  | list _ a _ element => a.base = .byteSequence → ∀ window item,
    element.decode window = .ok item → ∃ b : UInt8, item = .uint b.toUInt64
  | _ => True

variable {walk accessor : String} {f : Format} {v : Value} {bytes : Bytes}

section Checks

open EncodeError

theorem seen_names (v : Value) : FailsOnly (Names walk accessor) (seen walk v) := by
  unfold seen
  split
  · exact failsOnly_ok _
  · exact failsOnly_error rfl

theorem check_names (regime : Regime) (count : Nat) :
    FailsOnly (Names walk accessor) (regime.check walk count) := by
  unfold Regime.check
  split
  · exact .ite (fun _ => failsOnly_ok ()) fun _ => failsOnly_error rfl
  · exact .ite (fun _ => failsOnly_ok ()) fun _ => failsOnly_error rfl
  · exact failsOnly_ok ()

theorem bodyOf_names (body : Option Value) :
    FailsOnly (Names walk accessor) (bodyOf walk body) := by
  cases body with
  | none => exact failsOnly_error rfl
  | some w => exact failsOnly_ok w

/-- Of the faults of a value, those that the accessor finds name its shape, and the others that of
the walk. -/
theorem checkValue_names (f : Format) (v : Value) :
    FailsOnly (Names walk accessor) (f.checkValue walk accessor v) := by
  cases f with
  | basic head a => exact (seen_names v).bind fun w => (a.base.encode_names w).verdict
  | list head a regime element =>
    refine (seen_names v).bind fun w => (a.base.items_names w).bind fun items => ?_
    exact check_names regime items.length
  | union head a nullable variants =>
    refine (seen_names v).bind fun w => (a.base.selector_names w).bind fun selector => ?_
    split
    · exact failsOnly_error rfl
    · exact failsOnly_ok ()
    · exact (bodyOf_names _).verdict
  | container head a fields size =>
    refine (seen_names v).bind fun w => (a.base.fieldsOf_names w).bind fun values => ?_
    exact .ite (fun _ => failsOnly_ok ()) fun _ => failsOnly_error rfl

end Checks

/-- Of the faults of bytes, those that the accessor finds name its shape, and the others that of the
walk. -/
theorem checkBytes_names (f : Format) (bytes : Bytes) :
    FailsOnly (DecodeError.Names walk accessor) (f.checkBytes walk accessor bytes) := by
  cases f with
  | basic head a =>
    refine FailsOnly.bind ?_ fun _ => (a.base.decode_names bytes).verdict
    refine .ite (fun _ => failsOnly_error rfl) fun _ => ?_
    exact .ite (fun _ => failsOnly_error rfl) fun _ => failsOnly_ok ()
  | list head a regime element => exact (elementWindows_names regime _).verdict
  | union head a nullable variants =>
    refine .ite (fun _ => failsOnly_error rfl) fun _ => ?_
    split
    · exact failsOnly_error rfl
    · exact .ite (fun _ => failsOnly_ok ()) fun _ => failsOnly_error rfl
    · exact failsOnly_ok ()
  | container head a fields size => exact (windows_names _).verdict

/-! ### Walks -/

/-- An offset is too large, or a part of the value cannot be written. -/
def StopsWriting (walk : String) (f : Format) (v : Value) (e : EncodeError) : Prop :=
  (∃ offset, maxOffset < offset ∧ e = .maxSize walk (.tooLong maxOffset offset)) ∨
    ∃ g w, f.PartOf v g w ∧ g.encode w = .error e

/-- A part of the value cannot be hashed, or be written to share chunks with others. -/
def StopsHashing (hasher : Hasher) (f : Format) (v : Value) (e : EncodeError) : Prop :=
  ∃ g w, f.PartOf v g w ∧ (g.root hasher w = .error e ∨ g.packable = true ∧ g.encode w = .error e)

/-- One of some links refuses a value, or a part of the bytes cannot be read. -/
def StopsReading (links : List (String × Rebuild)) (f : Format) (bytes : Bytes) (e : DecodeError) :
    Prop :=
  (∃ link ∈ links, ∃ w reason, link.2 w = .error reason ∧ e = .rejected link.1 reason) ∨
    ∃ g window, f.WindowOf bytes g window ∧ g.decode window = .error e

/-- Writing a value finds the faults of the node first. -/
theorem encode_opens (f : Format) (v : Value) :
    Opens (f.checkValue f.name f.shape v) (f.StopsWriting f.name v) (f.encode v) := by
  cases f with
  | basic head a => exact .bind fun w _ => .verdict
  | list head a regime element =>
    refine .bind fun w shown => .bind fun items taken => .check_bind ?_
    refine compose_failsOnly (fun child mem => ?_) fun offset large => .inl ⟨offset, large, rfl⟩
    obtain ⟨item, inside, rfl⟩ := List.mem_map.mp mem
    exact fun e failed => .inr ⟨_, item, .item (seen_eq_ok.mp shown) taken inside, failed⟩
  | union head a nullable variants =>
    rw [encode, checkValue]
    refine .bind fun w shown => .bind fun selector tagged => ?_
    rw [encoders_eq, Variant.select_map]
    cases chosen : Variant.select nullable variants selector with
    | none => exact .error _
    | some variant =>
      cases variant with
      | empty => exact .of_failsOnly (failsOnly_ok _)
      | body g =>
        refine .verdict_bind fun body held => FailsOnly.bind (fun e failed => ?_)
          fun _ => failsOnly_ok _
        have held := bodyOf_eq_ok.mp held
        exact .inr ⟨g, body, .body (seen_eq_ok.mp shown) tagged chosen held, failed⟩
  | container head a fields size =>
    rw [encode, checkValue]
    refine .bind fun w shown => .bind fun values taken => .check_bind ?_
    simp only [encoders_eq, fieldChildren_eq]
    refine compose_failsOnly (fun child mem => ?_) fun offset large => .inl ⟨offset, large, rfl⟩
    obtain ⟨⟨g, field⟩, inside, rfl⟩ := List.mem_map.mp mem
    exact fun e failed => .inr ⟨g, field, .field (seen_eq_ok.mp shown) taken inside, failed⟩

/-- Hashing a value that has no root of its own finds the same faults. -/
theorem root_opens (hasher : Hasher) (f : Format) (bare : v.root? = none) :
    Opens (f.checkValue f.name f.shape v) (f.StopsHashing hasher v) (f.root hasher v) := by
  -- A value without a root of its own is no overlay, and the walk sees it as it is.
  have shown := concrete_of_root? bare
  have seen {name : String} : Format.seen name v = .ok v := seen_eq_ok.mpr shown
  cases f with
  | basic head a =>
    simp only [root, checkValue, bare, seen, ok_bind]
    exact .verdict_bind fun _ _ => failsOnly_ok _
  | list head a regime element =>
    simp only [root, checkValue, bare, seen, ok_bind]
    refine .bind fun items taken => .check_bind ?_
    -- Elements that share chunks are written, all others hashed.
    refine .ite (fun shared => ?_) fun _ => ?_
    · refine FailsOnly.bind (.mapM fun item inside e failed => ?_) fun _ => failsOnly_ok _
      exact ⟨_, item, .item shown taken inside, .inr ⟨shared, failed⟩⟩
    · refine FailsOnly.bind (.mapM fun item inside e failed => ?_) fun _ => failsOnly_ok _
      exact ⟨_, item, .item shown taken inside, .inl failed⟩
  | union head a nullable variants =>
    simp only [root, checkValue, bare, seen, ok_bind, rooters_eq, Variant.select_map]
    refine .bind fun selector tagged => ?_
    cases chosen : Variant.select nullable variants selector with
    | none => exact .error _
    | some variant =>
      cases variant with
      | empty => exact .of_failsOnly (failsOnly_ok _)
      | body g =>
        refine .verdict_bind fun body held => FailsOnly.bind (fun e failed => ?_)
          fun _ => failsOnly_ok _
        exact ⟨g, body, .body shown tagged chosen (bodyOf_eq_ok.mp held), .inl failed⟩
  | container head a fields size =>
    simp only [root, checkValue, bare, seen, ok_bind, rooters_eq]
    refine .bind fun values taken => .check_bind ?_
    refine FailsOnly.bind (.mapM fun pair inside e failed => ?_) fun _ => failsOnly_ok _
    rw [List.zip_map_left] at inside
    obtain ⟨⟨g, field⟩, mem, rfl⟩ := List.mem_map.mp inside
    exact ⟨g, field, .field shown taken mem, .inl failed⟩

/-- Nothing is wrong with the elements that a sequence is put together from, if those of a byte
string are bytes. -/
theorem create_of_bytes {P : DecodeError → Prop} (a : Handler ListAccessor) {items : List Value}
    (bytes : a.base = .byteSequence → ∀ item ∈ items, ∃ b : UInt8, item = .uint b.toUInt64) :
    FailsOnly P (a.base.create a.shape items) := by
  cases base : a.base with
  | sequence => exact failsOnly_ok _
  | byteSequence =>
    refine FailsOnly.map (.mapM fun item mem => ?_)
    obtain ⟨b, rfl⟩ := bytes base item mem
    rw [ListAccessor.byteOf_eq_ok.mpr rfl]
    exact failsOnly_ok b

/-- Reading bytes finds the faults of the node first. -/
theorem decode_opens (f : Format) (reads : f.ReadsBytes) (bytes : Bytes) :
    Opens (f.checkBytes f.name f.shape bytes) (f.StopsReading f.links bytes) (f.decode bytes) := by
  have finished {α : Type} (a : Handler α) (same : a.links = f.links) (v : Value) :
      FailsOnly (f.StopsReading f.links bytes) (a.finish v) := by
    intro e refused
    obtain ⟨outer, link, inner, w, reason, split, -, answer, rfl⟩ := Handler.of_refused refused
    have mem : link ∈ a.links := split ▸ List.mem_append_right outer List.mem_cons_self
    exact .inl ⟨link, same ▸ mem, w, reason, answer, rfl⟩
  cases f with
  | basic head a => exact .bind fun _ _ => .verdict_bind fun w _ => finished a rfl w
  | list head a regime element =>
    refine .verdict_bind fun found cut => FailsOnly.bind_of (.mapM fun window inside e failed => ?_)
      fun items read => FailsOnly.bind_of ?_ fun w _ => finished a rfl w
    · exact .inr ⟨_, window, .item cut inside, failed⟩
    -- Here a byte string might be put together from something else than bytes.
    · exact create_of_bytes a fun base => forall_right (mapM_eq_ok.mp read) (reads base)
  | union head a nullable variants =>
    rw [decode, checkBytes]
    refine .ite (fun _ => .error _) fun _ => ?_
    simp only [decoders_eq, Variant.select_map]
    cases chosen : Variant.select nullable variants (UInt32.ofNat (readOffset bytes)) with
    | none => exact .error _
    | some variant =>
      cases variant with
      | empty => exact .ite (fun _ => .of_failsOnly (finished a rfl _)) fun _ => .error _
      | body g =>
        refine .of_failsOnly (FailsOnly.bind (fun e failed => ?_) fun _ => finished a rfl _)
        exact .inr ⟨g, _, .body chosen, failed⟩
  | container head a fields size =>
    rw [decode, checkBytes]
    refine .verdict_bind fun found cut => FailsOnly.bind (.mapM fun pair inside e failed => ?_)
      fun values => finished a rfl _
    rw [decoders_eq, List.zip_map_left] at inside
    obtain ⟨⟨g, window⟩, mem, rfl⟩ := List.mem_map.mp inside
    exact .inr ⟨g, window, .field cut mem, failed⟩

end Format

/-! ### Resolution -/

namespace Catalog

open Schema

variable {c : Catalog} {d : Descriptor} {f : Format} {bound : Nat}

/-- A byte string is read from elements that are declared to be bytes, and no subclass of them. -/
theorem readsBytes_of_formatBelow (wf : c.schema.WellFormed) (h : c.formatBelow bound d = .ok f) :
    f.ReadsBytes := by
  have lawful := lawful_of_formatBelow h
  cases bound with
  | zero => cases h
  | succ bound =>
    obtain ⟨outline, parts, ho, hp, h⟩ := formatBelow_succ_eq_ok.mp h
    cases outline with
    | basic a =>
      cases h
      trivial
    | list a size element =>
      cases hp with
      | cons hp _ =>
        simp only [finish, bind_eq_ok] at h
        obtain ⟨regime, -, h⟩ := h
        obtain rfl := eq_of_checkFixedSize h
        intro base window item read
        obtain ⟨id, rfl, declared⟩ := byte_of_outline ho base
        -- Of the elements nothing is known but that they are bytes: a link could change that.
        have unlinked : c.schema.AllFunctions Rebuild.Inert id := by
          intro other next rebuild reached sub
          obtain rfl | ⟨r, mem, -⟩ := (reaches_iff declared).mp reached
          · cases declared.symm.trans sub
          · cases mem
        rw [← Schema.use_none] at hp
        exact Format.byte_of_decode (lawful.here.2 base) (allLinks_of_format wf unlinked hp) read
    | union a nullable variants =>
      cases h
      trivial
    | container a fields =>
      obtain rfl := eq_of_checkFixedSize h
      trivial

end Catalog

/-! ### Codecs -/

namespace Codec

open Format

variable {catalog : Catalog} {hasher : Hasher} {c : Codec} {shape last : ShapeId}
  {links : List (String × Rebuild)} {f : Format}

/-- A shape that travels as another is faulted under two names.  When a value is written or hashed,
or bytes are read, then what is wrong with them at the node itself comes out first.  The error names
the shape if the walk finds the fault (pruned values, counts, arity, selectors, numbers of bytes,
offsets), and the shape at the end of the chain if the accessor does (the kind of a value, its width,
its magnitude, the bytes of a basic value).  After that, all errors are those of parts but two: a
large offset names the shape, and a value that is refused names the link that refuses it. -/
theorem names_of_faults (wf : catalog.schema.WellFormed) (session : Session catalog hasher c)
    (travels : catalog.schema.TravelsAs shape links last)
    (resolved : catalog.format (catalog.schema.descriptor shape) = .ok f) :
    let walk := catalog.schema.name shape
    let accessor := catalog.schema.name last
    (∀ v, FailsOnly (EncodeError.Names walk accessor) (f.checkValue walk accessor v) ∧
      (∃ x, ((encode shape v).run c).1 = x.mapError .encode ∧
        Opens (f.checkValue walk accessor v) (f.StopsWriting walk v) x) ∧
      (v.root? = none → ∃ x, ((root shape v).run c).1 = x.mapError .encode ∧
        Opens (f.checkValue walk accessor v) (f.StopsHashing hasher v) x) ∧
      ∀ r, v.root? = some r → ((root shape v).run c).1 = .ok r) ∧
    ∀ bytes, FailsOnly (DecodeError.Names walk accessor) (f.checkBytes walk accessor bytes) ∧
      ∃ x, ((decode shape bytes).run c).1 = x.mapError .decode ∧
        Opens (f.checkBytes walk accessor bytes) (f.StopsReading links bytes) x := by
  intro walk accessor
  have found := resolved
  rw [Catalog.format, ← Schema.use_none] at found
  have name : f.name = walk := by
    rw [Catalog.name_of_formatBelow found, Schema.shape_use]
  obtain ⟨handled, linked⟩ : f.shape = accessor ∧ f.links = links :=
    Catalog.handler_of_format wf travels found
  have reads := Catalog.readsBytes_of_formatBelow wf found
  rw [← name, ← handled, ← linked]
  refine ⟨fun v => ⟨f.checkValue_names v, ⟨f.encode v, ?_, f.encode_opens v⟩,
    fun bare => ⟨f.root hasher v, ?_, f.root_opens hasher bare⟩, fun r own => ?_⟩,
    fun bytes => ⟨f.checkBytes_names bytes, f.decode bytes, ?_, f.decode_opens reads bytes⟩⟩
  · rw [encode, run_withFormat session resolved]
  · rw [root, run_withFormat session resolved]
  · rw [root, run_withFormat session resolved]
    cases f <;> simp only [Format.root, own] <;> rfl
  · rw [decode, run_withFormat session resolved]

/-- A container that travels through two links. -/
def duoSchema : Schema where
  entries := [
    ⟨"uint8", .basic (.uint 1)⟩,
    ⟨"Pair", .container [⟨"a", 0, none⟩, ⟨"b", 0, none⟩]⟩,
    ⟨"Couple", .subclass 1 .ok⟩,
    ⟨"Duo", .subclass 2 .ok⟩]

theorem wellFormed_duo : duoSchema.WellFormed := by decide

theorem names_of_faults_duo :
    let c : Codec := { catalog := { schema := duoSchema } }
    let arity : EncodeError :=
      .valueMismatch "Duo" "one value per declared field" "container of another arity"
    ((encode 3 (.container [.uint 1])).run c).1 = .error (.encode arity) ∧
      ((root 3 (.bool true)).run c).1 =
        .error (.encode (.valueMismatch "Pair" "container" "bool")) ∧
      ((decode 3 [1]).run c).1 = .error (.decode (.truncated "Duo" 2 1)) := by
  intro c arity
  obtain ⟨f, resolved, short, kind, bytes⟩ :
      ∃ f, c.catalog.format (c.catalog.schema.descriptor 3) = .ok f ∧
        f.checkValue "Duo" "Pair" (.container [.uint 1]) = .error arity ∧
        f.checkValue "Duo" "Pair" (.bool true) =
          .error (.valueMismatch "Pair" "container" "bool") ∧
        f.checkBytes "Duo" "Pair" [1] = .error (.truncated "Duo" 2 1) :=
    ⟨_, rfl, rfl, rfl, rfl⟩
  have travels : duoSchema.TravelsAs 3 [("Duo", .ok), ("Couple", .ok)] 1 :=
    .link rfl (.link rfl (.target rfl nofun))
  obtain ⟨values, windows⟩ := names_of_faults wellFormed_duo .start travels resolved
  obtain ⟨-, ⟨x, written, first⟩, -⟩ := values (.container [.uint 1])
  obtain ⟨-, -, hash, -⟩ := values (.bool true)
  obtain ⟨y, hashed, first'⟩ := hash rfl
  obtain ⟨-, z, read, first''⟩ := windows [1]
  refine ⟨?_, ?_, ?_⟩
  · rw [written, first.first _ short]
    rfl
  · rw [hashed, first'.first _ kind]
    rfl
  · rw [read, first''.first _ bytes]
    rfl

/-- What the accessor finds wrong with a value of a subclass does not name the subclass. -/
theorem not_names_of_faults :
    let s : Schema := { entries := [⟨"uint64", .basic (.uint 8)⟩, ⟨"Slot", .subclass 0 .ok⟩] }
    let c : Codec := { catalog := { schema := s } }
    (∃ rebuild, s.declaration? 1 = some (.subclass 0 rebuild)) ∧
      ((encode 1 (.bool true)).run c).1 =
        .error (.encode (.valueMismatch "uint64" "integer" "bool")) ∧
      ¬∀ fault, ((encode 1 (.bool true)).run c).1 = .error (.encode fault) →
        fault.shape = s.name 1 := by
  intro s c
  have failed : ((encode 1 (.bool true)).run c).1 =
      .error (.encode (.valueMismatch "uint64" "integer" "bool")) := by
    decide +kernel
  refine ⟨⟨_, rfl⟩, failed, fun named => ?_⟩
  have same : "uint64" = "Slot" := named _ failed
  exact absurd same (by decide)

end Codec

end SimpleSerialize
