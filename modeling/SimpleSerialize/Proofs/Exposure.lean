/-
Writing looks through overlays.

An overlay that keeps a value is never seen in bytes: a value is written as what is left of it when
every such overlay is taken off, wherever it stands and whatever is overlaid underneath in turn.  A
part that was pruned cannot be written, whichever root it was pruned to.  `Value.exposed` is what is
left of a value.  Main statements:

* `Format.encode_exposed`, `Format.encodeRange_exposed`: a value is written, or refused, as what is
  left of it;
* `Value.exposed_install?`: giving a part a root changes nothing of what is left;
* `Codec.encode_of_exposed`: the same of a codec in any state.
-/
import SimpleSerialize.Proofs.Canonical
import SimpleSerialize.Value.Path

namespace SimpleSerialize

/-! ### Values without their overlays -/

namespace Value

mutual

/-- What is left of a value without the overlays that keep something.  Parts that were pruned stay
pruned, and are not told apart by their roots. -/
def exposed : Value → Value
  | .bool b => .bool b
  | .uint n => .uint n
  | .bigUint n => .bigUint n
  | .bytes bs => .bytes bs
  | .list items => .list (exposedAll items)
  | .container fields => .container (exposedAll fields)
  | .union selector body => .union selector (exposedBody body)
  | .overlay _ (some kept) => kept.exposed
  | .overlay _ none => .pruned (.zero 32)

def exposedAll : List Value → List Value
  | [] => []
  | v :: vs => v.exposed :: exposedAll vs

def exposedBody : Option Value → Option Value
  | none => none
  | some v => some v.exposed

end

@[simp] theorem exposedAll_eq (vs : List Value) : exposedAll vs = vs.map exposed := by
  induction vs with
  | nil => rfl
  | cons v vs ih => rw [exposedAll, ih, List.map_cons]

@[simp] theorem exposedBody_eq (body : Option Value) : exposedBody body = body.map exposed := by
  cases body <;> rfl

/-- What a value shows is left of it. -/
theorem concrete_exposed (v : Value) : v.exposed.concrete = v.concrete.map exposed := by
  fun_induction concrete v with
  | case1 r kept ih => exact ih
  | case2 r => exact concrete_pruned (.zero 32)
  | case3 v kept pruned =>
    cases v with
    | overlay r under =>
      cases under with
      | none => exact absurd rfl (pruned r)
      | some w => exact absurd rfl (kept r w)
    | _ => simp only [exposed, concrete, Option.map_some]

/-- What is shown under overlays is no overlay. -/
theorem root?_of_concrete {v w : Value} (shown : v.concrete = some w) : w.root? = none := by
  fun_induction concrete v with
  | case1 r kept ih => exact ih shown
  | case2 r => cases shown
  | case3 v kept pruned =>
    obtain rfl : v = w := Option.some.inj shown
    cases v with
    | overlay r under =>
      cases under with
      | none => exact absurd rfl (pruned r)
      | some w => exact absurd rfl (kept r w)
    | _ => rfl

/-! ### Overlays put on a part -/

theorem exposed_withRoot (r : Root) (v : Value) : (v.withRoot r).exposed = v.exposed := by
  cases v with
  | overlay q kept => cases kept <;> simp [withRoot, exposed]
  | _ => simp [withRoot, exposed]

section Modify

variable {change : Value → Value}

mutual

/-- A change that is not seen at a part is not seen in the whole. -/
theorem exposed_modify? (unseen : ∀ v, (change v).exposed = v.exposed) :
    ∀ {v w : Value} {p : Path}, v.modify? change p = some w → w.exposed = v.exposed
  | v, w, [], h => by
    obtain rfl : change v = w := by cases v <;> exact Option.some.inj h
    exact unseen v
  | .list items, w, i :: p, h => by
    obtain ⟨items', below, rfl⟩ := Option.map_eq_some_iff.mp h
    rw [exposed, exposed, exposed_modifyAt? unseen below]
  | .container fields, w, i :: p, h => by
    obtain ⟨fields', below, rfl⟩ := Option.map_eq_some_iff.mp h
    rw [exposed, exposed, exposed_modifyAt? unseen below]
  | .union selector (some body), w, 0 :: p, h => by
    obtain ⟨body', below, rfl⟩ := Option.map_eq_some_iff.mp h
    rw [exposed, exposed, exposedBody, exposedBody, exposed_modify? unseen below]
  | .overlay r (some kept), w, i :: p, h => by
    obtain ⟨kept', below, rfl⟩ := Option.map_eq_some_iff.mp h
    rw [exposed, exposed, exposed_modify? unseen below]

theorem exposed_modifyAt? (unseen : ∀ v, (change v).exposed = v.exposed) :
    ∀ {vs ws : List Value} {i : Nat} {p : Path}, modifyAt? change vs i p = some ws →
      exposedAll ws = exposedAll vs
  | v :: vs, ws, 0, p, h => by
    obtain ⟨v', here, rfl⟩ := Option.map_eq_some_iff.mp h
    rw [exposedAll, exposedAll, exposed_modify? unseen here]
  | v :: vs, ws, i + 1, p, h => by
    obtain ⟨vs', further, rfl⟩ := Option.map_eq_some_iff.mp h
    rw [exposedAll, exposedAll, exposed_modifyAt? unseen further]

end

end Modify

/-- Giving a part a root changes nothing of what is left without overlays. -/
theorem exposed_install? {v w : Value} {p : Path} {r : Root} (h : v.install? p r = some w) :
    w.exposed = v.exposed :=
  exposed_modify? (exposed_withRoot r) h

end Value

/-! ### Accessors -/

section Accessors

variable {w : Value}

/-- A basic value has no parts, and anything else is refused by its kind. -/
theorem BasicForm.encode_exposed {shape : String} (form : BasicForm) (bare : w.root? = none) :
    form.encode shape w.exposed = form.encode shape w := by
  cases w with
  | overlay r kept => cases bare
  | list items => cases form <;> rfl
  | container fields => cases form <;> rfl
  | union selector body => cases form <;> rfl
  | _ => rfl

theorem ListAccessor.items_exposed {shape : String} (a : ListAccessor) (bare : w.root? = none) :
    a.items shape w.exposed = (a.items shape w).map (List.map Value.exposed) := by
  cases w with
  | overlay r kept => cases bare
  | list items =>
    rw [Value.exposed, Value.exposedAll_eq]
    cases a <;> rfl
  | bytes bs =>
    have words : (bs.map fun b => Value.uint b.toUInt64).map Value.exposed =
        bs.map fun b => .uint b.toUInt64 := by
      rw [List.map_map]
      exact List.map_congr_left fun b _ => by simp [Value.exposed]
    cases a with
    | sequence => rfl
    | byteSequence =>
      show Except.ok _ = Except.ok _
      rw [words]
  | _ => cases a <;> rfl

theorem UnionAccessor.selector_exposed {shape : String} (a : UnionAccessor)
    (bare : w.root? = none) : a.selector shape w.exposed = a.selector shape w := by
  cases w with
  | overlay r kept => cases bare
  | _ => rfl

theorem UnionAccessor.body?_exposed (a : UnionAccessor) (bare : w.root? = none) :
    a.body? w.exposed = (a.body? w).map Value.exposed := by
  cases w with
  | overlay r kept => cases bare
  | union selector body =>
    rw [Value.exposed, Value.exposedBody_eq]
    rfl
  | _ => rfl

theorem ContainerAccessor.fieldsOf_exposed {shape : String} (a : ContainerAccessor)
    (bare : w.root? = none) :
    a.fieldsOf shape w.exposed = (a.fieldsOf shape w).map (List.map Value.exposed) := by
  cases w with
  | overlay r kept => cases bare
  | container fields =>
    rw [Value.exposed, Value.exposedAll_eq]
    rfl
  | _ => rfl

end Accessors

/-! ### Writing -/

namespace Format

variable {f : Format} {v : Value}

/-- A step on what a value shows is a step on what is left of it. -/
theorem seen_exposed_bind {α : Type} {shape : String} {next : Value → Except EncodeError α}
    (blind : ∀ w, w.root? = none → next w.exposed = next w) (v : Value) :
    (seen shape v.exposed >>= next) = (seen shape v >>= next) := by
  rw [seen, seen, Value.concrete_exposed]
  cases shown : v.concrete with
  | none => rfl
  | some w => exact blind w (Value.root?_of_concrete shown)

/-- A step on the elements of a sequence is one on what is left of them. -/
theorem items_exposed_bind {α : Type} {a : Handler ListAccessor} {w : Value}
    {next : List Value → Except EncodeError α} (bare : w.root? = none)
    (blind : ∀ items, next (items.map Value.exposed) = next items) :
    (a.items w.exposed >>= next) = (a.items w >>= next) := by
  rw [Handler.items, Handler.items, ListAccessor.items_exposed a.base bare]
  cases a.base.items a.shape w with
  | error e => rfl
  | ok items => exact blind items

/-- A value is written as what is left of it without overlays, or refused as that is. -/
theorem encode_exposed (f : Format) (v : Value) : f.encode v.exposed = f.encode v := by
  induction f generalizing v with
  | basic head a =>
    rw [encode, encode]
    exact seen_exposed_bind (fun w bare => a.base.encode_exposed bare) v
  | list head a regime element ih =>
    rw [encode, encode]
    refine seen_exposed_bind (fun w bare => items_exposed_bind bare fun items => ?_) v
    have children : (items.map Value.exposed).map
        (fun item => (element.fixedSize, element.encode item)) =
        items.map fun item => (element.fixedSize, element.encode item) := by
      rw [List.map_map]
      exact List.map_congr_left fun item _ => congrArg (Prod.mk _) (ih item)
    simp only [List.length_map, children]
  | union head a nullable variants ih =>
    rw [encode, encode, encoders_eq]
    refine seen_exposed_bind (fun w bare => ?_) v
    have selector : a.selector w.exposed = a.selector w := a.base.selector_exposed bare
    have body : a.body? w.exposed = (a.body? w).map Value.exposed := a.base.body?_exposed bare
    rw [selector, body]
    refine congrArg _ (funext fun s => ?_)
    rw [Variant.select_map]
    cases chosen : Variant.select nullable variants s with
    | none => rfl
    | some variant =>
      cases variant with
      | empty => rfl
      | body g =>
        cases a.body? w with
        | none => rfl
        | some b =>
          have same := ih g (Variant.mem_of_select chosen) b
          simp only [Option.map_some, Variant.map, bodyOf, ok_bind, same]
  | container head a fields size ih =>
    rw [encode, encode, encoders_eq]
    refine seen_exposed_bind (fun w bare => ?_) v
    have values : a.fields w.exposed = (a.fields w).map (List.map Value.exposed) :=
      a.base.fieldsOf_exposed bare
    rw [values]
    cases a.fields w with
    | error e => rfl
    | ok vs =>
      simp only [Except.map, ok_bind, List.length_map, fieldChildren_eq, List.zip_map_right,
        List.map_map]
      refine congrArg _ (funext fun _ => congrArg _ (List.map_congr_left fun p mem => ?_))
      exact congrArg (Prod.mk _) (ih p.1 (List.of_mem_zip mem).1 p.2)

/-- The same of some elements of a sequence. -/
theorem encodeRange_exposed (f : Format) (v : Value) (start len : Nat) :
    f.encodeRange v.exposed start len = f.encodeRange v start len := by
  cases f with
  | list head a regime element =>
    rw [encodeRange, encodeRange]
    refine seen_exposed_bind (fun w bare => items_exposed_bind bare fun items => ?_) v
    have children : (((items.map Value.exposed).drop start).take len).map
        (fun item => (element.fixedSize, element.encode item)) =
        ((items.drop start).take len).map fun item =>
          (element.fixedSize, element.encode item) := by
      rw [← List.map_drop, ← List.map_take, List.map_map]
      exact List.map_congr_left fun item _ => congrArg (Prod.mk _) (encode_exposed element item)
    simp only [List.length_map, children]
  | _ => rfl

end Format

/-! ### Codecs -/

namespace Codec

variable {catalog : Catalog} {hasher : Hasher} {c c' : Codec} {shape : ShapeId} {f : Format}

/-- Two values are written alike, as a whole and in ranges, by a codec in one state and in another. -/
structure WrittenAlike (c c' : Codec) (shape : ShapeId) (v w : Value) : Prop where
  encode : ((encode shape v).run c).1 = ((encode shape w).run c').1
  encodeRange : ∀ start len, ((encodeRange shape v start len).run c).1 =
    ((encodeRange shape w start len).run c').1

/-- Values of which the same is left without overlays have the same bytes, or are refused for the
same reason; so a part of a value can be given any root, and the bytes of the whole stay the same. -/
theorem encode_of_exposed (session : Session catalog hasher c) (session' : Session catalog hasher c')
    (resolved : catalog.format (catalog.schema.descriptor shape) = .ok f) :
    (∀ v w : Value, v.exposed = w.exposed → WrittenAlike c c' shape v w) ∧
      ∀ (v s : Value) (p : Path) (r : Root), v.get? p = some s →
        ∃ w, v.install? p r = some w ∧ WrittenAlike c c' shape v w := by
  have alike (v w : Value) (same : v.exposed = w.exposed) : WrittenAlike c c' shape v w := by
    constructor
    · rw [encode, encode, run_withFormat session resolved, run_withFormat session' resolved,
        ← f.encode_exposed v, same, f.encode_exposed w]
    · intro start len
      rw [encodeRange, encodeRange, run_withFormat session resolved,
        run_withFormat session' resolved, ← f.encodeRange_exposed v, same,
        f.encodeRange_exposed w]
  refine ⟨alike, fun v s p r present => ?_⟩
  obtain ⟨w, hw⟩ := Value.exists_modify? present (.withRoot r)
  exact ⟨w, hw, alike v w (Value.exposed_install? hw).symm⟩

/-- A record with an overlay on a field, on the list beside it and on an element of that list. -/
theorem encode_of_exposed_record :
    let c : Codec := { catalog := { schema := recordSchema .ok } }
    let r : Root := .zero 32
    let bytes : Bytes := [2, 0, 6, 0, 0, 0, 1, 0, 3, 0]
    let plain : Value := .container [.uint 2, .list [.uint 1, .uint 3]]
    let items : Value := .list [.overlay r (some (.overlay r (some (.uint 1)))), .uint 3]
    let v : Value := .container [.overlay r (some (.uint 2)), .overlay r (some items)]
    ((encode 3 plain).run c).1 = .ok bytes ∧ ((encode 3 v).run c).1 = .ok bytes ∧
      ∃ w, v.install? [1, 1] r = some w ∧ ((encode 3 w).run c).1 = .ok bytes := by
  intro c r bytes plain items v
  have encoded : ((encode 3 plain).run c).1 = .ok bytes := by decide +kernel
  obtain ⟨alike, installed⟩ := encode_of_exposed .start .start (format_record .ok)
  have overlaid : ((encode 3 v).run c).1 = .ok bytes := (alike v plain rfl).encode.trans encoded
  obtain ⟨w, hw, same⟩ := installed v (.uint 3) [1, 1] r rfl
  exact ⟨encoded, overlaid, w, hw, same.encode.symm.trans overlaid⟩

end Codec

end SimpleSerialize
