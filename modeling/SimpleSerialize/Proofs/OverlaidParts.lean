/-
Overlays on the parts of a value that is lifted.

Sequences, options, records and choices are lifted from what a value shows, so that a root on any of
them is not noticed.  A flag, an integer or a byte string has to stand in the value as it is: with a
root of its own it is refused, wherever it stands, and the whole value with it.  Newtypes are lifted
as what they wrap.  Main statements:

* `Model.lift_withRoot`: a value with a root is lifted as before, or refused;
* `Model.follows_of_changed`: a value is lifted with a changed part as before, or fails as that part
  does;
* `Model.lift_of_installed`: the same of a root installed at any path.
-/
import SimpleSerialize.Proofs.Installing
import SimpleSerialize.Proofs.Misplaced

namespace SimpleSerialize

/-! ### Failing halfway -/

section Refuse

variable {ε α β : Type}

/-- A computation that may be refused. -/
def refuse (o : Option ε) (x : Except ε α) : Except ε α :=
  match o with
  | none => x
  | some e => .error e

theorem refuse_bind (o : Option ε) (x : Except ε α) (next : α → Except ε β) :
    refuse o x >>= next = refuse o (x >>= next) := by
  cases o <;> rfl

end Refuse

/-! ### Models of parts -/

/-- The model of a field, by its position. -/
def ModelFields.at? : ModelFields → Nat → Option Model
  | .nil, _ => none
  | .cons _ model _ _, 0 => some model
  | .cons _ _ _ rest, i + 1 => rest.at? i

/-- The model of the body of a variant, by its position. -/
def ModelVariants.at? : ModelVariants → Nat → Option Model
  | .nil, _ => none
  | .cons model _, 0 => some model
  | .cons _ rest, i + 1 => rest.at? i

namespace Model

/-- The model that a part of a value is lifted into, by the position of the part. -/
def part? : Model → Value → Nat → Option Model
  | .list element, _, _ => some element
  | .vector element _, _, _ => some element
  | .boundedList element _, _, _ => some element
  | .sizedVector element _, _, _ => some element
  | .sizedList element _, _, _ => some element
  | .option body, _, _ => some body
  | .newtype _ inner _, v, i => inner.part? v i
  | .record _ fields, _, i => fields.at? i
  | .choice _ nullable variants, v, _ =>
    match v.concrete with
    | some (.union selector _) => variants.at? (selector.toNat - nullable.toNat)
    | _ => none
  | _, _, _ => none

/-- The model that the part of a value at a path is lifted into. -/
def modelAt? (m : Model) (v : Value) : Path → Option Model
  | [] => some m
  | i :: p => do (← m.part? v i).modelAt? (← v.get? [i]) p

/-- How a model refuses a value for its overlay, if it does. -/
def refusal? : Model → Option DecodeError
  | .bool => some (.modelMismatch (shapeName .bool) "bool" "virtual")
  | .uint size => some (.modelMismatch (shapeName (.uint size)) "integer" "virtual")
  | .uint256 => some (.modelMismatch (shapeName .uint256) "integer" "virtual")
  | .bytes length => some (.modelMismatch (shapeName (.bytes length)) "bytes" "virtual")
  | .newtype _ inner _ => inner.refusal?
  | _ => none

/-! ### A root on the whole value -/

theorem withRoot_eq_overlay (v : Value) (r : Root) : ∃ kept, v.withRoot r = .overlay r kept := by
  cases v <;> exact ⟨_, rfl⟩

/-- A value with a root is lifted as before, or refused. -/
theorem lift_withRoot (v : Value) (r : Root) :
    ∀ m : Model, m.lift (v.withRoot r) = refuse m.refusal? (m.lift v)
  | .bool | .uint256 | .bytes _ => by
    obtain ⟨kept, same⟩ := withRoot_eq_overlay v r
    rw [same]
    rfl
  | .uint size => by
    obtain ⟨kept, same⟩ := withRoot_eq_overlay v r
    rw [same]
    cases size <;> rfl
  | .newtype _ inner _ => lift_withRoot v r inner
  | .list _ | .vector _ _ | .boundedList _ _ | .sizedVector _ _ | .sizedList _ _ => by
    show elements _ _ >>= _ = elements _ v >>= _
    rw [elements, elements, v.concrete_withRoot r]
  | .option _ | .choice _ true _ | .choice _ false _ => by
    show selected _ _ >>= _ = selected _ v >>= _
    rw [selected, selected, v.concrete_withRoot r]
  | .record _ _ => by
    show fieldsOf _ _ _ >>= _ = fieldsOf _ _ v >>= _
    rw [fieldsOf, fieldsOf, v.concrete_withRoot r]

/-! ### A changed part -/

section Changed

variable {α β : Type} {v w y y' : Value} {i : Nat} {o : Option Model} {sub : Model}
  {x x' : Except DecodeError α}

/-- What is lifted with one part, and with another one in its place: the part is lifted into a model
of its own, and the whole with the other part is refused as that is. -/
def Follows (o : Option Model) (y y' : Value) (x x' : Except DecodeError α) : Prop :=
  ∃ sub a, o = some sub ∧ sub.lift y = .ok a ∧
    ∀ fault, sub.lift y' = refuse fault (.ok a) → x' = refuse fault x

theorem follows_self {a : sub.Instance} (lifted : sub.lift y = .ok a) (y' : Value) :
    Follows (some sub) y y' (sub.lift y) (sub.lift y') :=
  ⟨sub, a, rfl, lifted, fun _ changed => lifted ▸ changed⟩

theorem Follows.bind (follows : Follows o y y' x x') (next : α → Except DecodeError β) :
    Follows o y y' (x >>= next) (x' >>= next) := by
  obtain ⟨sub, a, part, lifted, whole⟩ := follows
  refine ⟨sub, a, part, lifted, fun fault changed => ?_⟩
  rw [whole fault changed, refuse_bind]

/-- The same after a check that is passed. -/
theorem Follows.unless {p : Prop} [Decidable p] {e : DecodeError} (follows : Follows o y y' x x')
    (passed : ¬ p) : Follows o y y' (if p then .error e else x) (if p then .error e else x') := by
  rwa [if_neg passed, if_neg passed]

theorem follows_mapM {items : List Value} {xs : List sub.Instance}
    (each : (items.mapM fun item => sub.lift item) = .ok xs) (here : items[i]? = some y) :
    Follows (some sub) y y' (items.mapM fun item => sub.lift item)
      ((items.set i y').mapM fun item => sub.lift item) := by
  induction items generalizing xs i with
  | nil => cases here
  | cons item items ih =>
    simp only [List.mapM_cons, bind_eq_ok, pure_eq_ok] at each
    obtain ⟨a, first, xs, rest, -⟩ := each
    cases i with
    | zero =>
      cases here
      rw [List.set_cons_zero, List.mapM_cons, List.mapM_cons]
      exact (follows_self first y').bind _
    | succ i =>
      rw [List.set_cons_succ, List.mapM_cons, List.mapM_cons, first, ok_bind, ok_bind]
      exact (ih rest here).bind _

theorem follows_liftFields {name : String} : ∀ {fields : ModelFields} {values : List Value}
    {xs : RecordInstance fields} {i : Nat}, liftFields name fields values = .ok xs →
      values.length = fields.length → values[i]? = some y →
        Follows (fields.at? i) y y' (liftFields name fields values)
          (liftFields name fields (values.set i y'))
  | .nil, [], _, _, _, _, here => nomatch here
  | .cons _ model _ rest, v :: vs, _, 0, lifted, _, here => by
    obtain ⟨a, first, -⟩ := bind_eq_ok.mp lifted
    cases here
    exact (follows_self first y').bind _
  | .cons _ model _ rest, v :: vs, _, i + 1, lifted, arity, here => by
    obtain ⟨a, first, lifted⟩ := bind_eq_ok.mp lifted
    obtain ⟨xs, others, -⟩ := bind_eq_ok.mp lifted
    have below : Follows (rest.at? i) y y' (liftFields name rest vs)
        (liftFields name rest (vs.set i y')) :=
      follows_liftFields others (Nat.succ.inj arity) here
    show Follows _ y y' (model.lift v >>= _) (model.lift v >>= _)
    rw [first]
    exact below.bind _

theorem follows_liftVariant {name : String} : ∀ {variants : ModelVariants} {k : Nat}
    {x : ChoiceInstance variants}, liftVariant name variants k y = .ok x →
      Follows (variants.at? k) y y' (liftVariant name variants k y)
        (liftVariant name variants k y')
  | .nil, _, x, _ => nomatch x
  | .cons model _, 0, _, lifted => by
    obtain ⟨a, first, -⟩ := bind_eq_ok.mp lifted
    exact (follows_self first y').bind _
  | .cons _ rest, k + 1, _, lifted => by
    obtain ⟨x, other, -⟩ := bind_eq_ok.mp lifted
    exact (follows_liftVariant other).bind _

/-- Two values that show the same but for the part at one position. -/
inductive Changed (i : Nat) (y y' v w : Value) : Prop
  | list {items : List Value} : v.concrete = some (.list items) →
    w.concrete = some (.list (items.set i y')) → items[i]? = some y → Changed i y y' v w
  | container {fields : List Value} : v.concrete = some (.container fields) →
    w.concrete = some (.container (fields.set i y')) → fields[i]? = some y → Changed i y y' v w
  | union {selector : UInt32} : v.concrete = some (.union selector (some y)) →
    w.concrete = some (.union selector (some y')) → Changed i y y' v w

/-- A change below the top of a value changes one part of what it shows. -/
theorem changed_of_modify? {change : Value → Value} {p : Path} :
    ∀ {v w : Value}, v.modify? change (i :: p) = some w →
      ∃ y y', v.get? [i] = some y ∧ y.modify? change p = some y' ∧ Changed i y y' v w
  | .list items, w, h => by
    obtain ⟨items', below, rfl⟩ := Option.map_eq_some_iff.mp h
    obtain ⟨y, y', here, changed, rfl⟩ := Value.modifyAt?_eq_some.mp below
    exact ⟨y, y', Value.get?_list.trans here, changed, .list rfl rfl here⟩
  | .container fields, w, h => by
    obtain ⟨fields', below, rfl⟩ := Option.map_eq_some_iff.mp h
    obtain ⟨y, y', here, changed, rfl⟩ := Value.modifyAt?_eq_some.mp below
    exact ⟨y, y', Value.get?_container.trans here, changed, .container rfl rfl here⟩
  | .union selector (some body), w, h => by
    cases i with
    | succ i => cases h
    | zero =>
      obtain ⟨body', changed, rfl⟩ := Option.map_eq_some_iff.mp h
      exact ⟨body, body', by simp [Value.get?], changed, .union rfl rfl⟩
  | .overlay r (some kept), w, h => by
    obtain ⟨kept', below, rfl⟩ := Option.map_eq_some_iff.mp h
    obtain ⟨y, y', here, changed, shown⟩ := changed_of_modify? below
    refine ⟨y, y', here, changed, ?_⟩
    -- What is shown is the same with the overlay and without.
    cases shown with
    | list before after here =>
      exact .list ((Value.concrete_overlay r kept).trans before)
        ((Value.concrete_overlay r kept').trans after) here
    | container before after here =>
      exact .container ((Value.concrete_overlay r kept).trans before)
        ((Value.concrete_overlay r kept').trans after) here
    | union before after =>
      exact .union ((Value.concrete_overlay r kept).trans before)
        ((Value.concrete_overlay r kept').trans after)

theorem Changed.elements {name : String} {items : List Value} (changed : Changed i y y' v w)
    (found : elements name v = .ok items) :
    elements name w = .ok (items.set i y') ∧ items[i]? = some y := by
  have shown := concrete_of_elements found
  cases changed with
  | list before after here =>
    rw [before] at shown
    obtain same | ⟨bs, same, -⟩ := shown
    · cases same
      exact ⟨by rw [Model.elements, after], here⟩
    · cases same
  | container before _ _ =>
    rw [before] at shown
    obtain same | ⟨bs, same, -⟩ := shown <;> cases same
  | union before _ =>
    rw [before] at shown
    obtain same | ⟨bs, same, -⟩ := shown <;> cases same

theorem Changed.fieldsOf {name : String} {count : Nat} {fields : List Value}
    (changed : Changed i y y' v w) (found : fieldsOf name count v = .ok fields) :
    fieldsOf name count w = .ok (fields.set i y') ∧ fields[i]? = some y := by
  obtain ⟨shown, arity⟩ := fieldsOf_eq_ok found
  cases changed with
  | container before after here =>
    cases before.symm.trans shown
    refine ⟨?_, here⟩
    rw [Model.fieldsOf, after]
    exact if_pos (List.length_set.trans arity)
  | list before _ _ => cases before.symm.trans shown
  | union before _ => cases before.symm.trans shown

theorem Changed.selected {name : String} {selector : UInt32} {body : Option Value}
    (changed : Changed i y y' v w) (found : selected name v = .ok (selector, body)) :
    selected name w = .ok (selector, some y') ∧ body = some y := by
  have shown := selected_eq_ok found
  cases changed with
  | union before after =>
    cases before.symm.trans shown
    exact ⟨by rw [Model.selected, after], rfl⟩
  | list before _ _ => cases before.symm.trans shown
  | container before _ _ => cases before.symm.trans shown

/-- A sequence is lifted from its items. -/
theorem Changed.follows_items {name : String} {step : List Value → Except DecodeError α} {a : α}
    (changed : Changed i y y' v w) (lifted : (Model.elements name v >>= step) = .ok a)
    (each : ∀ items b, step items = .ok b → items[i]? = some y →
      Follows o y y' (step items) (step (items.set i y'))) :
    Follows o y y' (Model.elements name v >>= step) (Model.elements name w >>= step) := by
  obtain ⟨items, found, lifted⟩ := bind_eq_ok.mp lifted
  obtain ⟨after, here⟩ := changed.elements found
  rw [found, after, ok_bind, ok_bind]
  exact each items a lifted here

/-- The body of a union is lifted under its selector. -/
theorem Changed.follows_body {name : String} {a : α}
    {step : UInt32 × Option Value → Except DecodeError α} (changed : Changed i y y' v w)
    (lifted : (Model.selected name v >>= step) = .ok a)
    (body : ∀ selector, v.concrete = some (.union selector (some y)) →
      step (selector, some y) = .ok a →
        Follows o y y' (step (selector, some y)) (step (selector, some y'))) :
    Follows o y y' (Model.selected name v >>= step) (Model.selected name w >>= step) := by
  obtain ⟨⟨selector, kept⟩, found, lifted⟩ := bind_eq_ok.mp lifted
  obtain ⟨after, rfl⟩ := changed.selected found
  rw [found, after, ok_bind, ok_bind]
  exact body selector (selected_eq_ok found) lifted

/-- A value is lifted with a changed part as that part is. -/
theorem follows_of_changed (changed : Changed i y y' v w) : ∀ (m : Model) {x : m.Instance},
    m.refusal? = none → m.lift v = .ok x → Follows (m.part? v i) y y' (m.lift v) (m.lift w)
  | .newtype _ inner _, _, composite, lifted => follows_of_changed changed inner composite lifted
  | .list element, _, _, lifted =>
    changed.follows_items lifted fun _ _ each here => follows_mapM each here
  | .sizedVector element _, _, _, lifted =>
    changed.follows_items lifted fun _ _ each here => follows_mapM each here
  | .sizedList element _, _, _, lifted =>
    changed.follows_items lifted fun _ _ each here => follows_mapM each here
  | .vector element _, _, _, lifted => by
    refine changed.follows_items lifted fun items x lifted here => ?_
    obtain ⟨xs, each, -⟩ := bind_eq_ok.mp lifted
    exact (follows_mapM each here).bind _
  | .boundedList element _, _, _, lifted => by
    refine changed.follows_items lifted fun items x lifted here => ?_
    obtain ⟨xs, each, -⟩ := bind_eq_ok.mp lifted
    exact (follows_mapM each here).bind _
  | .record name fields, _, _, lifted => by
    obtain ⟨values, found, lifted⟩ := bind_eq_ok.mp lifted
    obtain ⟨-, arity⟩ := fieldsOf_eq_ok found
    obtain ⟨after, here⟩ := changed.fieldsOf found
    show Follows _ y y' (Model.fieldsOf _ _ v >>= _) (Model.fieldsOf _ _ w >>= _)
    rw [found, after]
    exact follows_liftFields lifted arity here
  | .option body, _, _, lifted => by
    refine changed.follows_body lifted fun selector shown lifted => ?_
    obtain ⟨rfl, lifted⟩ := of_guard lifted
    obtain ⟨a, below, -⟩ := bind_eq_ok.mp lifted
    exact (follows_self below y').bind _
  | .choice name true variants, _, _, lifted => by
    refine changed.follows_body lifted fun selector shown lifted => ?_
    have place : (choice name true variants).part? v i = variants.at? (selector.toNat - 1) := by
      simp only [part?, shown, Bool.toNat_true]
    by_cases zero : selector = 0
    · cases (if_pos zero).symm.trans lifted
    · obtain ⟨a, below, -⟩ := bind_eq_ok.mp ((if_neg zero).symm.trans lifted)
      rw [place]
      exact ((follows_liftVariant below).bind _).unless zero
  | .choice name false variants, _, _, lifted => by
    refine changed.follows_body lifted fun selector shown lifted => ?_
    have place : (choice name false variants).part? v i = variants.at? selector.toNat := by
      simp only [part?, shown, Bool.toNat_false, Nat.sub_zero]
    rw [place]
    exact follows_liftVariant lifted

/-- There is nothing below the top of a value that is lifted into a flag, an integer or a byte
string. -/
theorem refusal?_of_modify? {change : Value → Value} {p : Path}
    (h : v.modify? change (i :: p) = some w) :
    ∀ (m : Model) {x : m.Instance}, m.lift v = .ok x → m.refusal? = none
  | .newtype _ inner _, _, lifted => refusal?_of_modify? h inner lifted
  | .bool, _, lifted => by
    cases v with
    | bool b => cases h
    | _ => cases lifted
  | .uint size, _, lifted => by
    cases v with
    | uint n => cases h
    | bigUint n => cases h
    | _ => cases size <;> cases lifted
  | .uint256, _, lifted => by
    cases v with
    | uint n => cases h
    | bigUint n => cases h
    | _ => cases lifted
  | .bytes _, _, lifted => by
    cases v with
    | bytes bs => cases h
    | _ => cases lifted
  | .list _, _, _ | .sizedVector _ _, _, _ | .sizedList _ _, _, _ | .vector _ _, _, _
  | .boundedList _ _, _, _ | .record _ _, _, _ | .option _, _, _ | .choice _ _ _, _, _ => rfl

end Changed

/-! ### Roots at any path -/

variable {m : Model} {v w : Value} {p : Path} {r : Root}

/-- A root is installed in a value that is lifted.  If it comes to stand on a sequence, an option, a
record or a choice, the value is lifted as before.  If it comes to stand on a flag, an integer or a
byte string, the value is refused, with an error that names the model of that part. -/
theorem lift_of_installed {x : m.Instance} (lifted : m.lift v = .ok x)
    (installed : v.install? p r = some w) :
    ∃ sub, m.modelAt? v p = some sub ∧ (sub.refusal? = none → m.lift w = .ok x) ∧
      ∀ e, sub.refusal? = some e → m.lift w = .error e := by
  suffices whole : ∃ sub, m.modelAt? v p = some sub ∧ m.lift w = refuse sub.refusal? (.ok x) by
    obtain ⟨sub, place, whole⟩ := whole
    refine ⟨sub, place, fun through => ?_, fun e refused => ?_⟩
    · rw [whole, through]
      rfl
    · rw [whole, refused]
      rfl
  induction p generalizing m v w with
  | nil =>
    obtain rfl : v.withRoot r = w := by cases v <;> exact Option.some.inj installed
    exact ⟨m, rfl, by rw [lift_withRoot, lifted]⟩
  | cons i p ih =>
    obtain ⟨y, y', here, below, changed⟩ := changed_of_modify? installed
    have composite := refusal?_of_modify? installed m lifted
    obtain ⟨sub, a, part, inner, whole⟩ := follows_of_changed changed m composite lifted
    obtain ⟨last, place, refused⟩ := ih inner below
    refine ⟨last, ?_, ?_⟩
    · rw [modelAt?, part, here]
      exact place
    · rw [whole last.refusal? refused, lifted]

/-- A list of numbered pages, some without text. -/
def pages : Model :=
  .list (.record "Page" (.ofList [("number", .newtype "Number" (.uint .eight) .ok),
    ("text", .option (.boundedList (.uint .one) 4))]))

/-- A root on a page or on its text is looked through, one on its number is not. -/
theorem lift_of_installed_pages :
    let v : Value := .list [.container [.uint 1, .union 0 none],
      .container [.uint 2, .union 1 (some (.bytes [7, 8]))]]
    let r : Root := .zero 32
    (∃ x w, pages.lift v = .ok x ∧ v.install? [1, 1, 0] r = some w ∧ pages.lift w = .ok x) ∧
      ∃ w, v.install? [1, 0] r = some w ∧
        pages.lift w = .error (.modelMismatch "uint64" "integer" "virtual") := by
  intro v r
  obtain ⟨x, lifted⟩ : ∃ x, pages.lift v = .ok x := ⟨_, rfl⟩
  obtain ⟨sub, place, same, -⟩ := lift_of_installed lifted (p := [1, 1, 0]) (r := r) rfl
  obtain ⟨other, place', -, refused⟩ := lift_of_installed lifted (p := [1, 0]) (r := r) rfl
  cases place
  cases place'
  exact ⟨⟨x, _, lifted, rfl, same rfl⟩, _, rfl, refused _ rfl⟩

/-- A number is lifted, and is not lifted any more with a root of its own. -/
theorem not_lift_of_installed :
    ¬ ∀ (m : Model) (v w : Value) (x : m.Instance) (p : Path) (r : Root),
      m.lift v = .ok x → v.install? p r = some w → m.lift w = .ok x := by
  intro always
  have lifted : (uint .eight).lift (.uint 5) = .ok ⟨5, by decide⟩ := rfl
  cases always _ _ _ _ [] (.zero 32) lifted rfl

end Model

end SimpleSerialize
