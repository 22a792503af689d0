/-
Installing a root touches nothing else.

A value that is built from bare and pruned ones by giving roots and by writing at paths never has an
overlay directly under another: a root given to an overlaid part takes the place of the old one, and
a write goes below whatever stands on its way.  On such values a path names at most one overlay, and
a root that is installed at a path is seen at that path and at no other.  Main statements:

* `Value.reachable_iff_flat`: the values that can be built so are those without stacked overlays;
* `Value.exists_of_modify?_append`, `Value.get?_of_modify?_beside`: what is read above a change, and
  what is read beside and below one that leaves everything below it in place;
* `Value.install_of_reachable`: what installing a root does, at every path of every such value.
-/
import SimpleSerialize.Proofs.Exposure
import SimpleSerialize.Proofs.Normal

namespace SimpleSerialize

namespace Value

/-! ### Stacked overlays -/

/-- No overlay has another one directly underneath. -/
def Flat : Value → Prop :=
  Everywhere parts fun
    | .overlay _ (some kept) => kept.root? = none
    | _ => True

/-- Installs a root: whether there was something at the path, and the value afterwards. -/
def install (v : Value) (p : Path) (r : Root) : Bool × Value :=
  match v.install? p r with
  | some w => (true, w)
  | none => (false, v)

/-- The values that come of bare and pruned ones by giving roots and by writing at paths. -/
inductive Reachable : Value → Prop
  | bare {v : Value} : v.Bare → Reachable v
  | pruned (r : Root) : Reachable (.pruned r)
  | overlaid {v : Value} (r : Root) : Reachable v → Reachable (v.withRoot r)
  | installed {v : Value} (p : Path) (r : Root) : Reachable v → Reachable (v.install p r).2
  | written {v new w : Value} {p : Path} :
    Reachable v → Reachable new → v.set? p new = some w → Reachable w

theorem withRoot_of_root? {v : Value} (bare : v.root? = none) (r : Root) :
    v.withRoot r = .overlay r (some v) := by
  cases v with
  | overlay => cases bare
  | _ => rfl

theorem withRoot_withRoot (r r' : Root) (v : Value) : (v.withRoot r).withRoot r' = v.withRoot r' := by
  cases v <;> rfl

theorem Bare.flat {v : Value} (bare : v.Bare) : v.Flat := by
  refine bare.imp fun w top => ?_
  split
  · cases top
  · trivial

theorem Flat.withRoot {v : Value} (flat : v.Flat) (r : Root) : (v.withRoot r).Flat := by
  cases top : v.root? with
  | none =>
    rw [withRoot_of_root? top]
    exact .node top (List.forall_mem_singleton.mpr flat)
  | some r' =>
    -- The new overlay keeps what the old one kept, and that is no overlay.
    obtain ⟨kept, rfl⟩ : ∃ kept, v = .overlay r' kept := by
      cases v with
      | overlay q kept => exact ⟨kept, congrArg (overlay · kept) (Option.some.inj top)⟩
      | _ => cases top
    cases kept with
    | none => exact .node trivial flat.inside
    | some kept => exact .node flat.here flat.inside

/-! ### One step down -/

section Step

variable {change : Value → Value}

/-- A longer path is followed from the part that its first position names. -/
theorem get?_cons : ∀ (v : Value) (i : Nat) (q : Path),
    v.get? (i :: q) = (v.get? [i]).bind (·.get? q)
  | .list items, i, q => by rw [get?_list, get?, getAt?_eq]
  | .container fields, i, q => by rw [get?_container, get?, getAt?_eq]
  | .union selector (some body), 0, q => by simp [get?]
  | .union selector (some body), i + 1, q => by simp [get?]
  | .overlay r (some kept), i, q => by
    rw [get?, get?]
    exact get?_cons kept i q
  | .bool _, i, q => by simp [get?]
  | .uint _, i, q => by simp [get?]
  | .bigUint _, i, q => by simp [get?]
  | .bytes _, i, q => by simp [get?]
  | .union _ none, i, q => by simp [get?]
  | .overlay _ none, i, q => by simp [get?]

/-- A change in a sequence is a change of one of its items. -/
theorem modifyAt?_eq_some {vs ws : List Value} {i : Nat} {p : Path} :
    modifyAt? change vs i p = some ws ↔
      ∃ x y, vs[i]? = some x ∧ x.modify? change p = some y ∧ ws = vs.set i y := by
  rw [modifyAt?_eq, Option.bind_eq_some_iff]
  refine exists_congr fun x => ?_
  rw [Option.map_eq_some_iff, ← exists_and_left]
  exact exists_congr fun y => and_congr_right fun _ => and_congr_right fun _ => eq_comm

/-- What holds of all items, and of the changed one, holds of all items afterwards. -/
theorem forall_mem_of_modifyAt? {P : Value → Prop} {vs ws : List Value} {i : Nat} {p : Path}
    (h : modifyAt? change vs i p = some ws) (each : ∀ x ∈ vs, P x)
    (changed : ∀ x ∈ vs, ∀ y, x.modify? change p = some y → P y) : ∀ y ∈ ws, P y := by
  obtain ⟨x, y, here, made, rfl⟩ := modifyAt?_eq_some.mp h
  intro z mem
  rcases List.mem_or_eq_of_mem_set mem with old | rfl
  · exact each z old
  · exact changed x (List.mem_of_getElem? here) z made

theorem getAt?_set_self {vs : List Value} {i : Nat} {x : Value} (here : vs[i]? = some x) (y : Value)
    (q : Path) : getAt? (vs.set i y) i q = y.get? q := by
  obtain ⟨small, -⟩ := List.getElem?_eq_some_iff.mp here
  rw [getAt?_eq, List.getElem?_set_self small, Option.bind_some]

theorem getAt?_set_ne (vs : List Value) {i j : Nat} (other : j ≠ i) (y : Value) (q : Path) :
    getAt? (vs.set i y) j q = getAt? vs j q := by
  rw [getAt?_eq, getAt?_eq, List.getElem?_set_ne other.symm]

/-- A change below the top of a value, as it is seen from the top: one part is changed, whatever is
found beside it stays, and so does the root of the top. -/
theorem modify?_cons : ∀ {v w : Value} {i : Nat} {p : Path}, v.modify? change (i :: p) = some w →
    ∃ x y, v.get? [i] = some x ∧ x.modify? change p = some y ∧ w.root? = v.root? ∧
      (∀ q, w.get? (i :: q) = y.get? q) ∧ ∀ j q, j ≠ i → w.get? (j :: q) = v.get? (j :: q)
  | .list items, w, i, p, h => by
    obtain ⟨items', below, rfl⟩ := Option.map_eq_some_iff.mp h
    obtain ⟨x, y, here, changed, rfl⟩ := modifyAt?_eq_some.mp below
    exact ⟨x, y, get?_list.trans here, changed, rfl, getAt?_set_self here y,
      fun j q other => getAt?_set_ne items other y q⟩
  | .container fields, w, i, p, h => by
    obtain ⟨fields', below, rfl⟩ := Option.map_eq_some_iff.mp h
    obtain ⟨x, y, here, changed, rfl⟩ := modifyAt?_eq_some.mp below
    exact ⟨x, y, get?_container.trans here, changed, rfl, getAt?_set_self here y,
      fun j q other => getAt?_set_ne fields other y q⟩
  | .union selector (some body), w, 0, p, h => by
    obtain ⟨y, changed, rfl⟩ := Option.map_eq_some_iff.mp h
    refine ⟨body, y, by simp [get?], changed, rfl, fun q => rfl, fun j q other => ?_⟩
    obtain ⟨j, rfl⟩ := Nat.exists_eq_succ_of_ne_zero other
    rfl
  | .overlay r (some kept), w, i, p, h => by
    obtain ⟨kept', below, rfl⟩ := Option.map_eq_some_iff.mp h
    obtain ⟨x, y, here, changed, -, inside, beside⟩ := modify?_cons below
    exact ⟨x, y, here, changed, rfl, inside, beside⟩

mutual

/-- Two changes at one path are one change. -/
theorem modify?_modify? (f g : Value → Value) : ∀ (v : Value) (p : Path),
    (v.modify? f p).bind (·.modify? g p) = v.modify? (g ∘ f) p
  | v, [] => by cases v <;> simp [modify?]
  | .list items, i :: p => by
    simp only [modify?, ← modifyAt?_modifyAt? f g items i p, Option.bind_map, Option.map_bind]
    rfl
  | .container fields, i :: p => by
    simp only [modify?, ← modifyAt?_modifyAt? f g fields i p, Option.bind_map, Option.map_bind]
    rfl
  | .union s (some body), 0 :: p => by
    simp only [modify?, ← modify?_modify? f g body p, Option.bind_map, Option.map_bind]
    rfl
  | .overlay r (some kept), i :: p => by
    simp only [modify?, ← modify?_modify? f g kept (i :: p), Option.bind_map, Option.map_bind]
    rfl
  | .bool _, _ :: _ => by simp [modify?]
  | .uint _, _ :: _ => by simp [modify?]
  | .bigUint _, _ :: _ => by simp [modify?]
  | .bytes _, _ :: _ => by simp [modify?]
  | .union _ none, _ :: _ => by simp [modify?]
  | .union _ (some _), (_ + 1) :: _ => by simp [modify?]
  | .overlay _ none, _ :: _ => by simp [modify?]

theorem modifyAt?_modifyAt? (f g : Value → Value) : ∀ (vs : List Value) (i : Nat) (p : Path),
    (modifyAt? f vs i p).bind (modifyAt? g · i p) = modifyAt? (g ∘ f) vs i p
  | [], _, _ => by simp [modifyAt?]
  | v :: vs, 0, p => by
    simp only [modifyAt?, ← modify?_modify? f g v p, Option.bind_map, Option.map_bind]
    rfl
  | v :: vs, i + 1, p => by
    simp only [modifyAt?, ← modifyAt?_modifyAt? f g vs i p, Option.bind_map, Option.map_bind]
    rfl

end

/-! ### What is read after a change -/

variable {v w : Value} {p q : Path}

/-- Above a change, a part is what it was with the change made in it. -/
theorem exists_of_modify?_append (h : v.modify? change (p ++ q) = some w) :
    ∃ x y, v.get? p = some x ∧ x.modify? change q = some y ∧ w.get? p = some y := by
  induction p generalizing v w with
  | nil => exact ⟨v, w, get?_nil v, h, get?_nil w⟩
  | cons i p ih =>
    obtain ⟨x, y, here, changed, -, inside, -⟩ := modify?_cons h
    obtain ⟨x', y', before, deeper, after⟩ := ih changed
    refine ⟨x', y', ?_, deeper, (inside p).trans after⟩
    rw [get?_cons, here, Option.bind_some, before]

/-- Where a change is made, the part is what the change made of it. -/
theorem exists_of_modify? (h : v.modify? change p = some w) :
    ∃ x, v.get? p = some x ∧ w.get? p = some (change x) := by
  obtain ⟨x, y, before, here, after⟩ := exists_of_modify?_append (q := []) (p.append_nil.symm ▸ h)
  obtain rfl : change x = y := by cases x <;> exact Option.some.inj here
  exact ⟨x, before, after⟩

/-- A change that leaves everything below in place is seen only from above. -/
theorem get?_of_modify?_beside (blind : ∀ x j s, (change x).get? (j :: s) = x.get? (j :: s))
    (h : v.modify? change p = some w) (beside : ¬ q <+: p) : w.get? q = v.get? q := by
  induction p generalizing v w q with
  | nil =>
    obtain rfl : change v = w := by cases v <;> exact Option.some.inj h
    cases q with
    | nil => exact absurd List.nil_prefix beside
    | cons j s => exact blind v j s
  | cons i p ih =>
    obtain ⟨x, y, here, changed, -, inside, others⟩ := modify?_cons h
    cases q with
    | nil => exact absurd List.nil_prefix beside
    | cons j s =>
      rcases eq_or_ne j i with rfl | other
      · have deeper : ¬ s <+: p := fun within => beside (List.cons_prefix_cons.mpr ⟨rfl, within⟩)
        rw [inside, ih changed deeper, get?_cons v, here, Option.bind_some]
      · exact others j s other

end Step

/-! ### Values that can be built -/

section Built

variable {v w : Value} {p : Path}

/-- A change of a part puts no overlay under another, if the part itself has none.  A part that is
overlaid is looked through only on the way further down, so what stands under it keeps its root. -/
theorem Flat.modify? {change : Value → Value} (keeps : ∀ x : Value, x.Flat → (change x).Flat)
    (flat : v.Flat) (h : v.modify? change p = some w) : w.Flat := by
  induction flat generalizing w p with
  | @node v top inside ih =>
    cases p with
    | nil =>
      obtain rfl : change v = w := by cases v <;> exact Option.some.inj h
      exact keeps v (.node top inside)
    | cons i p =>
      cases v with
      | list items =>
        obtain ⟨items', below, rfl⟩ := Option.map_eq_some_iff.mp h
        exact .node trivial (forall_mem_of_modifyAt? below inside fun x mem y => ih x mem)
      | container fields =>
        obtain ⟨fields', below, rfl⟩ := Option.map_eq_some_iff.mp h
        exact .node trivial (forall_mem_of_modifyAt? below inside fun x mem y => ih x mem)
      | union selector body =>
        obtain _ | body := body
        · cases h
        obtain _ | i := i
        · obtain ⟨y, changed, rfl⟩ := Option.map_eq_some_iff.mp h
          exact .node trivial (List.forall_mem_singleton.mpr (ih body List.mem_cons_self changed))
        · cases h
      | overlay r kept =>
        obtain _ | kept := kept
        · cases h
        obtain ⟨kept', below, rfl⟩ := Option.map_eq_some_iff.mp h
        obtain ⟨_, _, -, -, sameRoot, -⟩ := modify?_cons below
        exact .node (sameRoot.trans top)
          (List.forall_mem_singleton.mpr (ih kept List.mem_cons_self below))
      | _ => cases h

theorem Flat.install (flat : v.Flat) (p : Path) (r : Root) : (v.install p r).2.Flat := by
  rw [Value.install]
  split
  · rename_i w installed
    exact flat.modify? (fun x below => below.withRoot r) installed
  · exact flat

theorem Reachable.flat (reachable : v.Reachable) : v.Flat := by
  induction reachable with
  | bare bare => exact bare.flat
  | pruned r => exact .node trivial fun _ mem => absurd mem List.not_mem_nil
  | overlaid r _ ih => exact ih.withRoot r
  | installed p r _ ih => exact ih.install p r
  | written _ _ written ih ihNew => exact ih.modify? (fun _ _ => ihNew) written

/-- A sequence or a container is filled part by part. -/
theorem reachable_of_parts (build : List Value → Value)
    (bare : ∀ vs : List Value, (∀ x ∈ vs, x.Bare) → (build vs).Bare)
    (write : ∀ (done rest : List Value) (x y : Value),
      (build (done ++ x :: rest)).set? [done.length] y = some (build (done ++ y :: rest)))
    {vs : List Value} (each : ∀ x ∈ vs, x.Reachable) : (build vs).Reachable := by
  suffices filled : ∀ done rest : List Value, (∀ x ∈ rest, x.Reachable) →
      (build (done ++ rest.map fun _ => .bool false)).Reachable → (build (done ++ rest)).Reachable by
    refine filled [] vs each (.bare (bare _ ?_))
    simp only [List.nil_append, List.mem_map]
    rintro x ⟨_, _, rfl⟩
    exact .node rfl fun _ mem => absurd mem List.not_mem_nil
  intro done rest each start
  induction rest generalizing done with
  | nil => exact start
  | cons x rest ih =>
    have next := start.written (each x List.mem_cons_self) (write done _ _ x)
    rw [List.append_cons] at next ⊢
    exact ih _ (fun y mem => each y (List.mem_cons_of_mem x mem)) next

/-- The values that can be built are those without stacked overlays. -/
theorem reachable_iff_flat : v.Reachable ↔ v.Flat := by
  refine ⟨Reachable.flat, fun flat => ?_⟩
  induction flat with
  | @node v top _ ih =>
    have leaf : v.parts = [] → v.root? = none → v.Reachable := fun empty root =>
      .bare (.node root fun _ mem => absurd (empty ▸ mem) List.not_mem_nil)
    cases v with
    | list items =>
      refine reachable_of_parts list (fun vs each => .node rfl each)
        (fun done rest x y => ?_) ih
      exact set?_list.mpr ⟨x, y, by simp, set?_nil x, by simp⟩
    | container fields =>
      refine reachable_of_parts container (fun vs each => .node rfl each)
        (fun done rest x y => ?_) ih
      exact set?_container.mpr ⟨x, y, by simp, set?_nil x, by simp⟩
    | union selector body =>
      obtain _ | body := body
      · exact leaf rfl rfl
      · have start : (union selector (some (.bool false))).Reachable :=
          .bare (.node rfl (List.forall_mem_singleton.mpr
            (.node rfl fun _ mem => absurd mem List.not_mem_nil)))
        exact start.written (ih body List.mem_cons_self) (p := [0]) rfl
    | overlay r kept =>
      obtain _ | kept := kept
      · exact .pruned r
      · rw [← withRoot_of_root? top r]
        exact .overlaid r (ih kept List.mem_cons_self)
    | _ => exact leaf rfl rfl

end Built

/-! ### Installing -/

section Install

variable {v w s : Value} {p : Path} {r : Root}

/-- A value differs from another only in the root of the part at a path. -/
structure RootedAt (v : Value) (p : Path) (r : Root) (w : Value) : Prop where
  here : (w.get? p).map root? = some (some r)
  elsewhere : ∀ q, q ≠ p → (w.get? q).map root? = (v.get? q).map root?
  beside : ∀ q, ¬ q <+: p → w.get? q = v.get? q
  shown : ∀ q, (w.get? q).map exposed = (v.get? q).map exposed

/-- A root is not seen from below. -/
theorem get?_withRoot (x : Value) (i : Nat) (q : Path) :
    (x.withRoot r).get? (i :: q) = x.get? (i :: q) := by
  cases x with
  | overlay r' kept => cases kept <;> simp [withRoot, get?]
  | _ => simp [withRoot, get?]

theorem rootedAt_of_install? (installed : v.install? p r = some w) : RootedAt v p r w := by
  have beside : ∀ q, ¬ q <+: p → w.get? q = v.get? q := fun q =>
    get?_of_modify?_beside (fun x i q => get?_withRoot x i q) installed
  -- What is read on the way to `p` is what was read there, with the root installed in it.
  have above : ∀ q rest, p = q ++ rest →
      ∃ x y, v.get? q = some x ∧ x.install? rest r = some y ∧ w.get? q = some y := by
    rintro q rest rfl
    exact exists_of_modify?_append installed
  constructor
  case here =>
    obtain ⟨x, -, after⟩ := exists_of_modify? installed
    rw [after, Option.map_some, root?_withRoot]
  case elsewhere =>
    intro q other
    by_cases within : q <+: p
    · obtain ⟨rest, path⟩ := within
      obtain ⟨x, y, before, deeper, after⟩ := above q rest path.symm
      obtain _ | ⟨i, rest⟩ := rest
      · exact absurd (q.append_nil.symm.trans path) other
      · obtain ⟨_, _, -, -, sameRoot, -⟩ := modify?_cons deeper
        rw [before, after, Option.map_some, Option.map_some, sameRoot]
    · rw [beside q within]
  case beside => exact beside
  case shown =>
    intro q
    by_cases within : q <+: p
    · obtain ⟨rest, path⟩ := within
      obtain ⟨x, y, before, deeper, after⟩ := above q rest path.symm
      rw [before, after, Option.map_some, Option.map_some, exposed_install? deeper]
    · rw [beside q within]

theorem install_eq (h : v.install? p r = some w) : v.install p r = (true, w) := by
  rw [install, h]

/-- Of two roots installed at one path the second stays. -/
theorem install_install (installed : v.install? p r = some w) (r' : Root) :
    w.install p r' = v.install p r' := by
  have twice : w.install? p r' = v.install? p r' := by
    have composed := modify?_modify? (withRoot r) (withRoot r') v p
    rw [show v.modify? (withRoot r) p = some w from installed, Option.bind_some] at composed
    rw [install?, install?, composed]
    exact congrArg (v.modify? · p) (funext fun x => withRoot_withRoot r r' x)
  have present : ∃ u, v.install? p r' = some u := by
    obtain ⟨x, before, -⟩ := exists_of_modify? installed
    exact exists_modify? before _
  obtain ⟨u, there⟩ := present
  rw [install_eq there, install_eq (twice.trans there)]

/-- Where a path leads nowhere nothing is installed.  Elsewhere the part at the path has the root
afterwards, the roots at all other paths stay as they are, and so does everything that can be seen
under the overlays; a second root at the same path leaves no trace of the first. -/
theorem install_of_reachable (reachable : v.Reachable) (p : Path) (r : Root) :
    v.Flat ∧ (v.get? p = none → v.install p r = (false, v)) ∧
      ∀ s, v.get? p = some s → ∃ w, v.install p r = (true, w) ∧ RootedAt v p r w ∧
        ∀ r', w.install p r' = v.install p r' := by
  refine ⟨reachable.flat, fun nowhere => ?_, fun s present => ?_⟩
  · have refused : v.install? p r = none := by
      by_contra accepted
      obtain ⟨w, installed⟩ := Option.ne_none_iff_exists'.mp accepted
      obtain ⟨x, before, -⟩ := exists_of_modify? installed
      rw [nowhere] at before
      cases before
    rw [install, refused]
  · obtain ⟨w, installed⟩ := exists_modify? present (withRoot r)
    exact ⟨w, install_eq installed, rootedAt_of_install? installed, install_install installed⟩

/-- A root for an item that has one already, in an overlaid list beside a pruned field. -/
theorem install_of_reachable_nested :
    let r : Root := .zero 32
    let r' : Root := .padded 32 [7]
    let v : Value :=
      .container [.overlay r (some (.list [.overlay r (some (.uint 1)), .uint 2])), .pruned r]
    let w : Value :=
      .container [.overlay r (some (.list [.overlay r' (some (.uint 1)), .uint 2])), .pruned r]
    v.Reachable ∧ v.Flat ∧ v.install [0, 2] r' = (false, v) ∧ v.install [0, 0] r' = (true, w) ∧
      RootedAt v [0, 0] r' w ∧ w.install [0, 0] r = (true, v) := by
  intro r r' v w
  have bare : Bare (.container [.list [.uint 1, .uint 2], .bool true]) := by
    refine .node rfl (List.forall_mem_cons.mpr ⟨.node rfl ?_, List.forall_mem_singleton.mpr ?_⟩)
    · exact List.forall_mem_cons.mpr ⟨.node rfl fun _ mem => absurd mem List.not_mem_nil,
        List.forall_mem_singleton.mpr (.node rfl fun _ mem => absurd mem List.not_mem_nil)⟩
    · exact .node rfl fun _ mem => absurd mem List.not_mem_nil
  have reachable : v.Reachable :=
    .written (p := [1]) (.installed [0, 0] r (.installed [0] r (.bare bare))) (.pruned r) rfl
  obtain ⟨flat, nowhere, -⟩ := install_of_reachable reachable [0, 2] r'
  obtain ⟨-, -, somewhere⟩ := install_of_reachable reachable [0, 0] r'
  obtain ⟨w', installed, rooted, again⟩ := somewhere (.overlay r (some (.uint 1))) rfl
  obtain rfl : w = w' := congrArg Prod.snd installed
  exact ⟨reachable, flat, nowhere rfl, installed, rooted, (again r).trans rfl⟩

end Install

end Value

end SimpleSerialize
