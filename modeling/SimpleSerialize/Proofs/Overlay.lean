/-
Overlays stand for the values whose roots they give.

A path leads down a value and, beside it, down the format; `Format.formatAt?` is the format that it
arrives at.  A root is computed from the roots of the parts, so that a part may be replaced by
anything with the same root, an overlay above all.  The exception are elements that share chunks:
their bytes are needed, and an overlay on one of them is looked through.  Main statements:

* `Format.root_of_set`: two values that may stand for each other at a place give the same root
  there, and the same failure if there is none;
* `Format.root_of_overlay`: a part may be replaced by an overlay with its root;
* `Codec.root_of_overlays`: two overlays with one root are told apart nowhere but on elements that
  share chunks.
-/
import SimpleSerialize.Proofs.Canonical
import SimpleSerialize.Value.Path

namespace SimpleSerialize

variable {hasher : Hasher} {f g : Format} {v w x y v₁ v₂ : Value} {i : Nat} {p : Path}

/-! ### Places in a format -/

namespace Format

/-- The format of a part of a value, by the position of the part. -/
def part? (f : Format) (v : Value) (i : Nat) : Option Format :=
  match f, v.concrete with
  | list _ _ _ element, some (.list _) => some element
  | container _ _ fields _, some (.container _) => fields[i]?
  | union _ _ nullable variants, some (.union selector _) =>
    match Variant.select nullable variants selector with
    | some (.body f) => some f
    | _ => none
  | _, _ => none

/-- The format of the part of a value at a path. -/
def formatAt? (f : Format) (v : Value) : Path → Option Format
  | [] => some f
  | i :: p => do (← f.part? v i).formatAt? (← v.get? [i]) p

/-- Whether the parts of a node share chunks. -/
def packsParts : Format → Bool
  | list _ _ _ element => element.packable
  | _ => false

/-- The path ends at an element of a sequence whose elements share chunks. -/
def PackedAt (f : Format) (v : Value) (p : Path) : Prop :=
  ∃ q i g, p = q ++ [i] ∧ f.formatAt? v q = some g ∧ g.packsParts

theorem part?_union {head : Heading} {a : Handler UnionAccessor} {nullable : Bool}
    {variants : List Format} {selector : UInt32} (body : Option Value)
    (chosen : Variant.select nullable variants selector = some (.body g)) :
    (union head a nullable variants).part? (.union selector body) 0 = some g := by
  simp only [part?, Value.concrete, chosen]

theorem formatAt?_cons (part : f.part? v i = some g) (child : v.get? [i] = some w) :
    f.formatAt? v (i :: p) = g.formatAt? w p := by
  rw [formatAt?, part, child]
  rfl

theorem not_packedAt_nil : ¬ f.PackedAt v [] := by
  rintro ⟨q, i, g, h, -⟩
  exact List.append_ne_nil_of_right_ne_nil q (List.cons_ne_nil i []) h.symm

theorem packedAt_singleton : f.PackedAt v [i] ↔ f.packsParts := by
  constructor
  · rintro ⟨q, j, g, h, place, packs⟩
    obtain rfl : q = [] := List.append_inj_left' (h.symm : q ++ [j] = [] ++ [i]) rfl
    cases place
    exact packs
  · intro packs
    exact ⟨[], i, f, rfl, rfl, packs⟩

/-- Only the last step of a path can lead to an element that shares chunks. -/
theorem packedAt_cons (part : f.part? v i = some g) (child : v.get? [i] = some w) :
    f.PackedAt v (i :: p) ↔ (p = [] ∧ f.packsParts) ∨ g.PackedAt w p := by
  constructor
  · rintro ⟨q, j, k, h, place, packs⟩
    cases q with
    | nil =>
      obtain ⟨rfl, rfl⟩ := List.cons_eq_cons.mp h
      cases place
      exact .inl ⟨rfl, packs⟩
    | cons i' q =>
      obtain ⟨rfl, rfl⟩ := List.cons_eq_cons.mp h
      rw [formatAt?_cons part child] at place
      exact .inr ⟨q, j, k, rfl, place, packs⟩
  · rintro (⟨rfl, packs⟩ | ⟨q, j, k, rfl, place, packs⟩)
    · exact ⟨[], i, f, rfl, rfl, packs⟩
    · exact ⟨i :: q, j, k, rfl, (formatAt?_cons part child).trans place, packs⟩

/-! ### Values that may stand for each other -/

/-- Two values may stand for each other at a place: they have the same bytes if the place is one of
an element that shares chunks, and else the same root.  Where the path leaves the format, they may
be any. -/
def Exchangeable (hasher : Hasher) (f : Format) (v : Value) (p : Path) (x y : Value) : Prop :=
  ∀ g, f.formatAt? v p = some g →
    (f.PackedAt v p → g.encode x = g.encode y) ∧
    (¬ f.PackedAt v p → g.root hasher x = g.root hasher y)

theorem Exchangeable.here (h : Exchangeable hasher f v [] x y) :
    f.root hasher x = f.root hasher y :=
  (h f rfl).2 not_packedAt_nil

/-- Below a node, the values may stand for each other at the rest of the path. -/
theorem Exchangeable.below (h : Exchangeable hasher f v (i :: p) x y)
    (part : f.part? v i = some g) (child : v.get? [i] = some w)
    (further : f.packsParts = true → p ≠ []) : Exchangeable hasher g w p x y := by
  have same : f.PackedAt v (i :: p) ↔ g.PackedAt w p := by
    refine (packedAt_cons part child).trans (or_iff_right ?_)
    rintro ⟨last, packs⟩
    exact further packs last
  intro k place
  rw [← same]
  exact h k ((formatAt?_cons part child).trans place)

/-- An element that shares chunks is exchanged for one of the same bytes. -/
theorem Exchangeable.last (h : Exchangeable hasher f v [i] x y) (part : f.part? v i = some g)
    (child : v.get? [i] = some w) (packs : f.packsParts = true) : g.encode x = g.encode y :=
  (h g (formatAt?_cons part child)).1 (packedAt_singleton.mpr packs)

/-! ### One node -/

section Node

variable {head : Heading} {regime : Regime} {element : Format} {nullable : Bool}
  {variants fields : List Format} {size : Option Nat} {items values : List Value}

/-- Hashing stops at an overlay. -/
@[simp] theorem root_overlay (r : Root) (kept : Option Value) :
    f.root hasher (.overlay r kept) = .ok r := by
  cases f <;> rw [root] <;> rfl

/-- Writing goes on under an overlay. -/
theorem encode_overlay (r : Root) (kept : Value) :
    f.encode (.overlay r (some kept)) = f.encode kept := by
  cases f <;> simp only [encode, seen, Value.concrete_overlay]

theorem items_list (a : Handler ListAccessor) : a.items (.list items) = .ok items := by
  rcases a with ⟨_ | _, _, _⟩ <;> rfl

/-- Elements that share chunks count with their bytes, and others with their roots. -/
theorem root_items_congr
    (encoded : element.packable = true → element.encode x = element.encode y)
    (hashed : element.packable = false → element.root hasher x = element.root hasher y)
    (a : Handler ListAccessor) :
    (list head a regime element).root hasher (.list (items.set i x)) =
      (list head a regime element).root hasher (.list (items.set i y)) := by
  simp only [root, Value.root?, items_list, ok_bind, List.length_set]
  cases packable : element.packable with
  | true => simp only [if_true, mapM_set_congr (encoded packable)]
  | false => simp only [Bool.false_eq_true, if_false, mapM_set_congr (hashed packable)]

theorem root_field_congr (hashed : ∀ g ∈ fields[i]?, g.root hasher x = g.root hasher y)
    (a : Handler ContainerAccessor) :
    (container head a fields size).root hasher (.container (values.set i x)) =
      (container head a fields size).root hasher (.container (values.set i y)) := by
  have each : ∀ hash ∈ (fields.map (root hasher))[i]?, hash x = hash y := by
    intro hash mem
    rw [List.getElem?_map] at mem
    obtain ⟨g, hg, rfl⟩ := Option.map_eq_some_iff.mp mem
    exact hashed g hg
  have bare (vs : List Value) : seen head.name (.container vs) = .ok (.container vs) := rfl
  have shown (vs : List Value) : a.fields (.container vs) = .ok vs := rfl
  simp only [root, Value.root?, bare, shown, ok_bind, rooters_eq, List.length_set,
    zip_mapM_set_congr each]

theorem root_body_congr {selector : UInt32}
    (hashed : ∀ g, Variant.select nullable variants selector = some (.body g) →
      g.root hasher x = g.root hasher y) (a : Handler UnionAccessor) :
    (union head a nullable variants).root hasher (.union selector (some x)) =
      (union head a nullable variants).root hasher (.union selector (some y)) := by
  have chosen (w : Value) : a.selector (.union selector (some w)) = .ok selector := rfl
  have shown (w : Value) : bodyOf head.name (a.body? (.union selector (some w))) = .ok w := rfl
  simp only [root, Value.root?, chosen, shown, ok_bind, rooters_eq, Variant.select_map]
  cases h : Variant.select nullable variants selector with
  | none => rfl
  | some variant =>
    cases variant with
    | empty => rfl
    | body g => simp only [Option.map_some, Variant.map, hashed g h]

/-- The bytes of a basic value show nothing of what stands below it, for no such value has parts. -/
theorem encode_basic_below (a : Handler BasicForm) : ∀ {v v₁ v₂ : Value},
    v.set? (i :: p) x = some v₁ → v.set? (i :: p) y = some v₂ →
      (basic head a).encode v₁ = (basic head a).encode v₂
  | .list items, _, _, h₁, h₂ => by
    obtain ⟨_, _, -, -, rfl⟩ := Value.set?_list.mp h₁
    obtain ⟨_, _, -, -, rfl⟩ := Value.set?_list.mp h₂
    rcases a with ⟨_ | _ | _, _, _⟩ <;> rfl
  | .container fields, _, _, h₁, h₂ => by
    obtain ⟨_, _, -, -, rfl⟩ := Value.set?_container.mp h₁
    obtain ⟨_, _, -, -, rfl⟩ := Value.set?_container.mp h₂
    rcases a with ⟨_ | _ | _, _, _⟩ <;> rfl
  | .union s (some body), _, _, h₁, h₂ => by
    obtain ⟨-, _, -, rfl⟩ := Value.set?_union.mp h₁
    obtain ⟨-, _, -, rfl⟩ := Value.set?_union.mp h₂
    rcases a with ⟨_ | _ | _, _, _⟩ <;> rfl
  | .overlay r (some kept), _, _, h₁, h₂ => by
    obtain ⟨kept₁, below₁, rfl⟩ := Value.set?_overlay.mp h₁
    obtain ⟨kept₂, below₂, rfl⟩ := Value.set?_overlay.mp h₂
    rw [encode_overlay, encode_overlay]
    exact encode_basic_below a below₁ below₂

end Node

/-- The parts of a sequence may be exchanged if those of its elements may. -/
theorem root_items_below {head : Heading} {regime : Regime} {element : Format} {items : List Value}
    (a : Handler ListAccessor)
    (same : Exchangeable hasher (list head a regime element) (.list items) (i :: p) x y)
    (child : items[i]? = some w) (h₁ : w.set? p x = some v₁) (h₂ : w.set? p y = some v₂)
    (below : Exchangeable hasher element w p x y → element.root hasher v₁ = element.root hasher v₂) :
    (list head a regime element).root hasher (.list (items.set i v₁)) =
      (list head a regime element).root hasher (.list (items.set i v₂)) := by
  replace child := Value.get?_list.trans child
  refine root_items_congr (fun packs => ?_) (fun plain => ?_) a
  · cases p with
    | nil =>
      obtain rfl : x = v₁ := Option.some.inj ((Value.set?_nil w).symm.trans h₁)
      obtain rfl : y = v₂ := Option.some.inj ((Value.set?_nil w).symm.trans h₂)
      exact same.last rfl child packs
    | cons j p =>
      cases element with
      | basic head a => exact encode_basic_below a h₁ h₂
      | _ => cases packs
  · refine below (same.below rfl child fun packs => ?_)
    cases plain.symm.trans packs

/-- Two values that may stand for each other at a place give the same root there, and the same
failure if there is none. -/
theorem root_of_set (same : Exchangeable hasher f v p x y) (h₁ : v.set? p x = some v₁)
    (h₂ : v.set? p y = some v₂) : f.root hasher v₁ = f.root hasher v₂ := by
  induction p generalizing f v v₁ v₂ with
  | nil =>
    obtain rfl : x = v₁ := Option.some.inj ((Value.set?_nil v).symm.trans h₁)
    obtain rfl : y = v₂ := Option.some.inj ((Value.set?_nil v).symm.trans h₂)
    exact same.here
  | cons i p ih =>
    -- A node of another category than the value refuses it by its kind, whatever is below.
    cases v with
    | list items =>
      obtain ⟨item, w₁, child, below₁, rfl⟩ := Value.set?_list.mp h₁
      obtain ⟨_, w₂, child₂, below₂, rfl⟩ := Value.set?_list.mp h₂
      cases child.symm.trans child₂
      cases f with
      | basic head a => rcases a with ⟨_ | _ | _, _, _⟩ <;> rfl
      | list head a regime element =>
        exact root_items_below a same child below₁ below₂ fun below => ih below below₁ below₂
      | union head a nullable variants => rfl
      | container head a fields size => rfl
    | container values =>
      obtain ⟨value, w₁, child, below₁, rfl⟩ := Value.set?_container.mp h₁
      obtain ⟨_, w₂, child₂, below₂, rfl⟩ := Value.set?_container.mp h₂
      cases child.symm.trans child₂
      cases f with
      | basic head a => rcases a with ⟨_ | _ | _, _, _⟩ <;> rfl
      | list head a regime element => rcases a with ⟨_ | _, _, _⟩ <;> rfl
      | union head a nullable variants => rfl
      | container head a fields size =>
        refine root_field_congr (fun g part => ?_) a
        exact ih (same.below part (Value.get?_container.trans child) nofun) below₁ below₂
    | union selector body =>
      cases body with
      | none => cases h₁
      | some body =>
        obtain ⟨rfl, w₁, below₁, rfl⟩ := Value.set?_union.mp h₁
        obtain ⟨-, w₂, below₂, rfl⟩ := Value.set?_union.mp h₂
        cases f with
        | basic head a => rcases a with ⟨_ | _ | _, _, _⟩ <;> rfl
        | list head a regime element => rcases a with ⟨_ | _, _, _⟩ <;> rfl
        | union head a nullable variants =>
          refine root_body_congr (fun g chosen => ?_) a
          exact ih (same.below (part?_union (some body) chosen) (Value.get?_nil body) nofun)
            below₁ below₂
        | container head a fields size => rfl
    | overlay r kept =>
      cases kept with
      | none => cases h₁
      | some kept =>
        obtain ⟨kept₁, -, rfl⟩ := Value.set?_overlay.mp h₁
        obtain ⟨kept₂, -, rfl⟩ := Value.set?_overlay.mp h₂
        rw [root_overlay, root_overlay]
    | _ => cases h₁

/-- An overlay may take the place of a part that has its root. -/
theorem exchangeable_overlay {s : Value} {r : Root} (place : f.formatAt? v p = some g)
    (apart : ¬ f.PackedAt v p) (known : g.root hasher s = .ok r) (under : Option Value) :
    Exchangeable hasher f v p s (.overlay r under) := by
  intro g' place'
  cases place.symm.trans place'
  exact ⟨fun packed => absurd packed apart, fun _ => known.trans (root_overlay r under).symm⟩

/-- A part of a value that does not share a chunk with others may be pruned to its root, or put under
an overlay with its root, and the root of the whole stays the same. -/
theorem root_of_overlay {s : Value} {r R : Root} (hashed : f.root hasher v = .ok R)
    (present : v.get? p = some s) (place : f.formatAt? v p = some g) (apart : ¬ f.PackedAt v p)
    (known : g.root hasher s = .ok r) (under : Option Value) :
    ∃ w, v.set? p (.overlay r under) = some w ∧ f.root hasher w = .ok R := by
  obtain ⟨w, hw⟩ := Value.exists_set? present (.overlay r under)
  have same := exchangeable_overlay place apart known under
  exact ⟨w, hw, (root_of_set same (Value.set?_get? present) hw).symm.trans hashed⟩

theorem root_of_overlay_record :
    let hasher : Hasher := { pair := fun l r => .padded 32 (l.bytes.take 16 ++ r.bytes.take 16) }
    let count : Root := .padded 32 [7]
    let items : Root := .padded 32 ([1, 0, 3, 0] ++ List.replicate 12 0 ++ [2])
    let whole : Root := .padded 32 ([7] ++ List.replicate 15 0 ++ [1, 0, 3])
    let v : Value := .container [.pruned count, .list [.uint 1, .uint 3]]
    (recordFormat .ok).root hasher v = .ok whole ∧
      (recordFormat .ok).root hasher (.container [.pruned count, .pruned items]) = .ok whole := by
  intro hasher count items whole v
  have hashed : (recordFormat .ok).root hasher v = .ok whole := by decide +kernel
  have apart : ¬ (recordFormat .ok).PackedAt v [1] := packedAt_singleton.not.mpr nofun
  obtain ⟨g, place, known⟩ : ∃ g, (recordFormat .ok).formatAt? v [1] = some g ∧
      g.root hasher (.list [.uint 1, .uint 3]) = .ok items := ⟨_, rfl, by decide +kernel⟩
  obtain ⟨w, hw, same⟩ := root_of_overlay hashed rfl place apart known none
  cases hw
  exact ⟨hashed, same⟩

end Format

namespace Codec

variable {catalog : Catalog} {c c' : Codec} {shape : ShapeId}

/-- Two overlays with one root are told apart only where they stand on an element that shares a
chunk with others; there the overlay is looked through. -/
theorem root_of_overlays {r : Root} {kept kept' : Option Value}
    (session : Session catalog hasher c) (session' : Session catalog hasher c')
    (resolved : catalog.format (catalog.schema.descriptor shape) = .ok f)
    (h₁ : v.set? p (.overlay r kept) = some v₁) (h₂ : v.set? p (.overlay r kept') = some v₂) :
    (¬ f.PackedAt v p → ((root shape v₁).run c).1 = ((root shape v₂).run c').1) ∧
      (f.PackedAt v p → ∀ u ∈ kept, v.set? p u = some w →
        ((root shape v₁).run c).1 = ((root shape w).run c').1) := by
  simp only [root, run_withFormat session resolved, run_withFormat session' resolved]
  refine ⟨fun apart => ?_, fun packed u under hw => ?_⟩
  · refine congrArg (Except.mapError _) (Format.root_of_set (fun g _ => ⟨?_, fun _ => ?_⟩) h₁ h₂)
    · exact fun packed => absurd packed apart
    · rw [Format.root_overlay, Format.root_overlay]
  · cases under
    refine congrArg (Except.mapError _) (Format.root_of_set (fun g _ => ⟨fun _ => ?_, ?_⟩) h₁ hw)
    · exact Format.encode_overlay r u
    · exact fun apart => absurd packed apart

theorem root_of_overlays_record :
    let c : Codec := { catalog := { schema := recordSchema .ok }, hasher := { pair := fun l _ => l } }
    let r : Root := .zero 32
    let record (items : Value) : Value := .container [.uint 7, items]
    ((root 3 (record (.pruned r))).run c).1 =
        ((root 3 (record (.overlay r (some (.bool true))))).run c).1 ∧
      ((root 3 (record (.list [.overlay r (some (.uint 2))]))).run c).1 =
        ((root 3 (record (.list [.uint 2]))).run c).1 := by
  intro c r record
  have resolved := format_record .ok
  constructor
  · have pruned : (record (.list [])).set? [1] (.pruned r) = some (record (.pruned r)) := rfl
    have kept : (record (.list [])).set? [1] (.overlay r (some (.bool true))) =
        some (record (.overlay r (some (.bool true)))) := rfl
    refine (root_of_overlays .start .start resolved pruned kept (w := .bool true)).1 ?_
    exact Format.packedAt_singleton.not.mpr nofun
  · have kept : (record (.list [.uint 1])).set? [1, 0] (.overlay r (some (.uint 2))) =
        some (record (.list [.overlay r (some (.uint 2))])) := rfl
    refine (root_of_overlays .start .start resolved kept kept).2 ?_ _ rfl rfl
    rw [Format.packedAt_cons rfl rfl, Format.packedAt_singleton]
    exact .inr rfl

/-- Two overlays with one root on the same element of a list of numbers give different roots, and
none if nothing is left under them. -/
theorem root_of_overlays_number :
    let c : Codec := { catalog := { schema := recordSchema .ok }, hasher := { pair := fun l _ => l } }
    let r : Root := .zero 32
    (¬ ∀ (v v₁ v₂ : Value) (p : Path) (kept kept' : Option Value),
      v.set? p (.overlay r kept) = some v₁ → v.set? p (.overlay r kept') = some v₂ →
        ((root 1 v₁).run c).1 = ((root 1 v₂).run c).1) ∧
      ((root 1 (.list [.pruned r])).run c).1 = .error (.encode (.pruned "uint16")) := by
  intro c r
  refine ⟨fun same => ?_, by decide +kernel⟩
  have same := same (.list [.uint 0]) _ _ [0] (some (.uint 1)) (some (.uint 2)) rfl rfl
  have one : ((root 1 (.list [.overlay r (some (.uint 1))])).run c).1 = .ok (.padded 32 [1]) := by
    decide +kernel
  have two : ((root 1 (.list [.overlay r (some (.uint 2))])).run c).1 = .ok (.padded 32 [2]) := by
    decide +kernel
  cases one.symm.trans (same.trans two)

end Codec

end SimpleSerialize
