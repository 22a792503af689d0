/-
Paths into values.

A path names a part of a value by positions: of an element in a sequence, of a field in a container,
and `0` for the body of a union.  Overlays are looked through on the way, so that a path means the
same before and after an overlay is put on some part of the value.  The part that a path ends at is
taken as it stands, with its overlay if it has one.  Main statements:

* `Value.getAt?_eq`, `Value.modifyAt?_eq`: the step into a sequence is a step to one of its items;
* `Value.get?_modify?`: what stands at a path after a write is what the write made of it, and a path
  can be written exactly when it can be read;
* `Value.set?_get?`: writing back what stands at a path changes nothing.
-/
import SimpleSerialize.Value

namespace SimpleSerialize

/-- Positions to follow, outermost first. -/
abbrev Path := List Nat

namespace Value

mutual

/-- The part of a value at a path. -/
def get? : Value → Path → Option Value
  | v, [] => some v
  | .list items, i :: p => getAt? items i p
  | .container fields, i :: p => getAt? fields i p
  | .union _ (some body), 0 :: p => body.get? p
  | .overlay _ (some kept), i :: p => kept.get? (i :: p)
  | _, _ :: _ => none

def getAt? : List Value → Nat → Path → Option Value
  | [], _, _ => none
  | v :: _, 0, p => v.get? p
  | _ :: vs, i + 1, p => getAt? vs i p

end

mutual

/-- Changes the part of a value at a path. -/
def modify? (f : Value → Value) : Value → Path → Option Value
  | v, [] => some (f v)
  | .list items, i :: p => (modifyAt? f items i p).map .list
  | .container fields, i :: p => (modifyAt? f fields i p).map .container
  | .union s (some body), 0 :: p => (body.modify? f p).map fun b => .union s (some b)
  | .overlay r (some kept), i :: p => (kept.modify? f (i :: p)).map fun v => .overlay r (some v)
  | _, _ :: _ => none

def modifyAt? (f : Value → Value) : List Value → Nat → Path → Option (List Value)
  | [], _, _ => none
  | v :: vs, 0, p => (v.modify? f p).map (· :: vs)
  | v :: vs, i + 1, p => (modifyAt? f vs i p).map (v :: ·)

end

/-- Replaces the part of a value at a path. -/
def set? (v : Value) (p : Path) (new : Value) : Option Value := v.modify? (fun _ => new) p

/-- Gives the part of a value at a path a root, keeping that part underneath. -/
def install? (v : Value) (p : Path) (root : Root) : Option Value := v.modify? (withRoot root) p

-- Most proofs here take one step along a path.
attribute [local simp] get? getAt? modify? modifyAt?

theorem getAt?_eq (vs : List Value) (i : Nat) (p : Path) :
    getAt? vs i p = vs[i]?.bind (·.get? p) := by
  induction vs generalizing i with
  | nil => simp
  | cons v vs ih => cases i <;> simp [ih]

theorem modifyAt?_eq (f : Value → Value) (vs : List Value) (i : Nat) (p : Path) :
    modifyAt? f vs i p = vs[i]?.bind fun v => (v.modify? f p).map (vs.set i) := by
  induction vs generalizing i with
  | nil => simp
  | cons v vs ih =>
    cases i with
    | zero =>
      simp only [modifyAt?, List.getElem?_cons_zero, Option.bind_some]
      rfl
    | succ i =>
      simp only [modifyAt?, ih, List.getElem?_cons_succ, Option.map_bind]
      congr 1
      funext w
      simp only [Function.comp_apply, Option.map_map]
      rfl

section

variable {items fields : List Value} {body kept new w : Value} {r : Root} {selector : UInt32}
  {i : Nat} {p : Path}

@[simp] theorem get?_nil (v : Value) : v.get? [] = some v := by
  cases v <;> rfl

@[simp] theorem set?_nil (v : Value) : v.set? [] new = some new := by
  cases v <;> rfl

theorem get?_list : (list items).get? [i] = items[i]? := by
  simp [getAt?_eq]

theorem get?_container : (container fields).get? [i] = fields[i]? := by
  simp [getAt?_eq]

theorem set?_list : (list items).set? (i :: p) new = some w ↔
    ∃ item item', items[i]? = some item ∧ item.set? p new = some item' ∧
      w = list (items.set i item') := by
  simp only [set?, modify?, modifyAt?_eq, Option.map_eq_some_iff, Option.bind_eq_some_iff]
  constructor
  · rintro ⟨_, ⟨item, here, item', below, rfl⟩, rfl⟩
    exact ⟨item, item', here, below, rfl⟩
  · rintro ⟨item, item', here, below, rfl⟩
    exact ⟨_, ⟨item, here, item', below, rfl⟩, rfl⟩

theorem set?_container : (container fields).set? (i :: p) new = some w ↔
    ∃ field field', fields[i]? = some field ∧ field.set? p new = some field' ∧
      w = container (fields.set i field') := by
  simp only [set?, modify?, modifyAt?_eq, Option.map_eq_some_iff, Option.bind_eq_some_iff]
  constructor
  · rintro ⟨_, ⟨field, here, field', below, rfl⟩, rfl⟩
    exact ⟨field, field', here, below, rfl⟩
  · rintro ⟨field, field', here, below, rfl⟩
    exact ⟨_, ⟨field, here, field', below, rfl⟩, rfl⟩

theorem set?_union : (union selector (some body)).set? (i :: p) new = some w ↔
    i = 0 ∧ ∃ body', body.set? p new = some body' ∧ w = union selector (some body') := by
  cases i with
  | zero => simp [set?, Option.map_eq_some_iff, @eq_comm _ w]
  | succ i => simp [set?]

theorem set?_overlay : (overlay r (some kept)).set? (i :: p) new = some w ↔
    ∃ kept', kept.set? (i :: p) new = some kept' ∧ w = overlay r (some kept') := by
  simp [set?, Option.map_eq_some_iff, @eq_comm _ w]

end

mutual

/-- What stands at a path after a write is what the write made of it; where nothing can be written
there is nothing to read, and the other way round. -/
theorem get?_modify? (f : Value → Value) : ∀ (v : Value) (p : Path),
    (v.modify? f p).bind (·.get? p) = (v.get? p).map f
  | v, [] => by cases v <;> simp
  | .list items, i :: p => by
    simpa [Option.bind_map, Function.comp_def] using getAt?_modifyAt? f items i p
  | .container fields, i :: p => by
    simpa [Option.bind_map, Function.comp_def] using getAt?_modifyAt? f fields i p
  | .union s (some body), 0 :: p => by
    simpa [Option.bind_map, Function.comp_def] using get?_modify? f body p
  | .overlay r (some kept), i :: p => by
    simpa [Option.bind_map, Function.comp_def] using get?_modify? f kept (i :: p)
  | .bool _, _ :: _ => by simp
  | .uint _, _ :: _ => by simp
  | .bigUint _, _ :: _ => by simp
  | .bytes _, _ :: _ => by simp
  | .union _ none, _ :: _ => by simp
  | .union _ (some _), (_ + 1) :: _ => by simp
  | .overlay _ none, _ :: _ => by simp

theorem getAt?_modifyAt? (f : Value → Value) : ∀ (vs : List Value) (i : Nat) (p : Path),
    (modifyAt? f vs i p).bind (getAt? · i p) = (getAt? vs i p).map f
  | [], _, _ => by simp
  | v :: vs, 0, p => by
    simpa [Option.bind_map, Function.comp_def] using get?_modify? f v p
  | v :: vs, i + 1, p => by
    simpa [Option.bind_map, Function.comp_def] using getAt?_modifyAt? f vs i p

end

/-- Whatever can be read can be changed. -/
theorem exists_modify? {v s : Value} {p : Path} (h : v.get? p = some s) (f : Value → Value) :
    ∃ w, v.modify? f p = some w := by
  have written := get?_modify? f v p
  rw [h] at written
  obtain ⟨w, hw, -⟩ := Option.bind_eq_some_iff.mp written
  exact ⟨w, hw⟩

/-- Whatever can be read can be replaced. -/
theorem exists_set? {v s : Value} {p : Path} (h : v.get? p = some s) (new : Value) :
    ∃ w, v.set? p new = some w :=
  exists_modify? h fun _ => new

mutual

/-- Writing back what stands at a path changes nothing. -/
theorem set?_get? : ∀ {v s : Value} {p : Path}, v.get? p = some s → v.set? p s = some v
  | v, _, [], h => by
    cases v <;> cases h <;> rfl
  | .list items, _, i :: p, h => by
    rw [set?, modify?, modifyAt?_getAt? h]
    rfl
  | .container fields, _, i :: p, h => by
    rw [set?, modify?, modifyAt?_getAt? h]
    rfl
  | .union s (some body), _, 0 :: p, h => by
    have below : body.set? p _ = some body := set?_get? h
    rw [set?] at below
    rw [set?, modify?, below]
    rfl
  | .overlay r (some kept), _, i :: p, h => by
    have below : kept.set? (i :: p) _ = some kept := set?_get? h
    rw [set?] at below
    rw [set?, modify?, below]
    rfl

theorem modifyAt?_getAt? : ∀ {vs : List Value} {s : Value} {i : Nat} {p : Path},
    getAt? vs i p = some s → modifyAt? (fun _ => s) vs i p = some vs
  | v :: vs, _, 0, p, h => by
    have here : v.set? p _ = some v := set?_get? h
    rw [set?] at here
    rw [modifyAt?, here]
    rfl
  | v :: vs, _, i + 1, p, h => by
    have below : getAt? vs i p = some _ := h
    rw [modifyAt?, modifyAt?_getAt? below]
    rfl

end

end Value

end SimpleSerialize
