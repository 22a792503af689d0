/-
Which accessor is chosen.

The search for an accessor can be read as a recursion: a shape that travels as a target has the
accessor of its target inside one more wrapper, and any other shape has the first accessor that
suits it.  The walk to the shape that gives the structure goes the same way, so that both end at one
declaration.  Accessors of different categories support different declarations; in a registry that
accessors were added to, one after the other, the search therefore finds the one that was added last
among all that suit, whatever its category.  Main statements:

* `Registry.resolve_subclass`, `Registry.resolve_plain`: the search, link by link;
* `Registry.direct?_ofAdded`: of the accessors that were added the last one that suits is found;
* `Registry.resolve_ofAdded`: what a successful search chose, and that its category is the one of
  the declaration, so that the node can be outlined.
-/
import Mathlib.Data.List.Induction
import SimpleSerialize.Proofs.Descent

namespace SimpleSerialize

open Schema

/-! ### The search, link by link -/

namespace Registry

variable {r : Registry} {s : Schema} {id next last : ShapeId} {rebuild : Rebuild}
  {links : List (String × Rebuild)} {field hint : Option String}

/-- The search without a chain. -/
theorem resolve_plain (plain : ∀ next rebuild, s.declaration? id ≠ some (.subclass next rebuild)) :
    s.structural (s.use id field hint) = s.use id field hint ∧
      r.resolve s (s.use id field hint) =
        match r.direct? s (s.use id field hint) [] with
        | some access => .ok access
        | none => .error (.unsupported (s.name id) field hint) := by
  have last : s.substituted? (s.use id field hint) = none := by
    cases declared : s.declaration? id with
    | none => simp only [substituted?, use, descriptor, declared, Option.map_none]
    | some d =>
      exact substituted?_use_last declared fun next f same => plain next f (same ▸ declared)
  have chain : s.chain (s.use id field hint) = [] := by
    rw [chain, shape_use]
    cases id with
    | zero => rfl
    | succ n => rw [chainOf, last]
  have structural : s.structural (s.use id field hint) = s.use id field hint := by
    rw [structural, chain, List.getLastD_nil]
  refine ⟨structural, ?_⟩
  have wrappers : wrappers s (s.use id field hint) = [] := by
    rw [wrappers, chain]
    rfl
  rw [resolve, structural, wrappers, shape_use]
  cases r.direct? s (s.use id field hint) [] <;> rfl

/-- The search along a link: the accessor of the target is put into one more wrapper. -/
theorem resolve_subclass (wf : s.WellFormed)
    (declared : s.declaration? id = some (.subclass next rebuild)) :
    s.structural (s.use id field hint) = s.structural (s.use next field hint) ∧
      r.resolve s (s.use id field hint) =
        (r.resolve s (s.use next field hint)).map (Access.wrap rebuild) := by
  obtain ⟨e, here, -⟩ := Option.map_eq_some_iff.mp declared
  have known : id < s.size := (List.getElem?_eq_some_iff.mp here).1
  have earlier : next < id := wf.lt_of_declared declared next List.mem_cons_self
  obtain ⟨links, last, travels, -⟩ := exists_travelsAs wf (Nat.lt_trans earlier known)
  have longer := TravelsAs.link declared travels
  refine ⟨by rw [longer.structural_eq wf, travels.structural_eq wf], ?_⟩
  rw [resolve, resolve, longer.structural_eq wf, travels.structural_eq wf, longer.wrappers_eq wf,
    travels.wrappers_eq wf, direct?_through, r.direct?_through s _ (links.map (·.2)), List.map_cons]
  cases r.direct? s (s.use last field hint) [] with
  | none => rfl
  | some access => cases access <;> rfl

/-- The search ends where the walk to the structure does, with one wrapper for each link. -/
theorem resolve_of_travelsAs (wf : s.WellFormed) (travels : s.TravelsAs id links last) :
    s.structural (s.use id field hint) = s.use last field hint ∧
      r.resolve s (s.use id field hint) =
        match r.direct? s (s.use last field hint) [] with
        | some access => .ok (access.through (links.map (·.2)))
        | none => .error (.unsupported (s.name last) field hint) := by
  induction travels with
  | @target id d declared plain =>
    obtain ⟨structural, resolved⟩ := @resolve_plain r s id field hint fun next f same =>
      plain next f (Option.some.inj (declared.symm.trans same))
    refine ⟨structural, resolved.trans ?_⟩
    cases r.direct? s (s.use id field hint) [] with
    | none => rfl
    | some access => cases access <;> rfl
  | @link id next last rebuild links declared _ ih =>
    obtain ⟨structural, resolved⟩ := @resolve_subclass r s id next rebuild field hint wf declared
    refine ⟨structural.trans ih.1, ?_⟩
    rw [resolved, ih.2]
    cases r.direct? s (s.use last field hint) [] with
    | none => rfl
    | some access => cases access <;> rfl

end Registry

/-! ### Accessors that are added -/

/-- What kind of accessor handles a declaration; a subclass is handled as its target is. -/
def Declaration.category : Declaration → String
  | basic _ => "basic"
  | sequence _ _ => "list"
  | union _ _ => "union"
  | container _ => "container"
  | subclass _ _ => "subclass"

namespace Stock

def category (a : Stock) : String := (a.within []).category

/-- An accessor supports a use of a shape and answers to its hint. -/
def Suits (s : Schema) (d : Descriptor) (a : Stock) : Prop :=
  (a.within []).supports s d = true ∧ ∀ hint ∈ d.hint, hint ∈ (a.within []).names

/-- The test that the search makes of an accessor. -/
def eligible (s : Schema) (d : Descriptor) : Stock → Bool
  | basic a => Registry.eligible s d a
  | list a => Registry.eligible s d a
  | union a => Registry.eligible s d a
  | container a => Registry.eligible s d a

variable {s : Schema} {d : Descriptor} {a : Stock}

theorem category_within (fs : List Rebuild) (a : Stock) : (a.within fs).category = a.category := by
  cases a <;> rfl

theorem through_within {fs : List Rebuild} (a : Stock) :
    (a.within []).through fs = a.within fs := by
  cases a <;> simp only [within, Access.through, List.append_nil]

theorem eligible_iff : a.eligible s d = true ↔ a.Suits s d := by
  have split {α : Type} [Accessor α] (a : α) : Registry.eligible s d a = true ↔
      Accessor.supports a s d = true ∧ ∀ hint ∈ d.hint, hint ∈ Accessor.names a := by
    rw [Registry.eligible, Bool.and_eq_true, and_comm]
    refine and_congr_right fun _ => ?_
    cases d.hint <;> simp
  cases a <;> exact split _

theorem supports_basic {a : BasicAccessor} {id : ShapeId}
    (supported : ShapeAccessor.supports a s id = true) :
    ∃ kind, s.declaration? id = some (.basic kind) := by
  simp only [ShapeAccessor.supports] at supported
  split at supported
  · rename_i declared
    exact ⟨_, declared⟩
  · rename_i declared
    exact ⟨_, declared⟩
  · rename_i declared
    exact ⟨_, declared⟩
  · cases supported

theorem supports_list {a : ListAccessor} {id : ShapeId}
    (supported : ShapeAccessor.supports a s id = true) :
    ∃ element size, s.declaration? id = some (.sequence element size) := by
  simp only [ShapeAccessor.supports] at supported
  split at supported
  · rename_i declared
    exact ⟨_, _, declared⟩
  · rename_i declared
    exact ⟨_, _, declared⟩
  · cases supported

theorem supports_union {a : UnionAccessor} {id : ShapeId}
    (supported : ShapeAccessor.supports a s id = true) :
    ∃ variants nullable, s.declaration? id = some (.union variants nullable) := by
  simp only [ShapeAccessor.supports] at supported
  split at supported
  · rename_i declared
    exact ⟨_, _, declared⟩
  · cases supported

theorem supports_container {a : ContainerAccessor} {id : ShapeId}
    (supported : ShapeAccessor.supports a s id = true) :
    ∃ fields, s.declaration? id = some (.container fields) := by
  simp only [ShapeAccessor.supports] at supported
  split at supported
  · rename_i declared
    exact ⟨_, declared⟩
  · cases supported

theorem supports_of_eligible {α : Type} [Accessor α] {a : α}
    (eligible : Registry.eligible s d a = true) : Accessor.supports a s d = true := by
  rw [Registry.eligible, Bool.and_eq_true] at eligible
  exact eligible.2

/-- An accessor is of the category of every declaration that it supports. -/
theorem category_of_eligible (eligible : a.eligible s d = true) :
    ∃ declaration, s.declaration? d.shape = some declaration ∧
      a.category = declaration.category := by
  cases a with
  | basic a =>
    obtain ⟨kind, declared⟩ := supports_basic (supports_of_eligible eligible)
    exact ⟨_, declared, rfl⟩
  | list a =>
    obtain ⟨element, size, declared⟩ := supports_list (supports_of_eligible eligible)
    exact ⟨_, declared, rfl⟩
  | union a =>
    obtain ⟨variants, nullable, declared⟩ := supports_union (supports_of_eligible eligible)
    exact ⟨_, declared, rfl⟩
  | container a =>
    obtain ⟨fields, declared⟩ := supports_container (supports_of_eligible eligible)
    exact ⟨_, declared, rfl⟩

/-- Only accessors of one category are eligible for a use of a shape. -/
theorem category_eq {b : Stock} (first : a.eligible s d = true) (second : b.eligible s d = true) :
    a.category = b.category := by
  obtain ⟨declaration, declared, same⟩ := category_of_eligible first
  obtain ⟨declaration', declared', same'⟩ := category_of_eligible second
  cases declared.symm.trans declared'
  exact same.trans same'.symm

end Stock

namespace Registry

variable {r : Registry} {s : Schema} {d : Descriptor} {added : List Stock}

/-- The registry that some accessors were added to, one after the other. -/
def ofAdded (added : List Stock) : Registry := added.foldl add {}

example : ofAdded [.container .fields, .union .tagged, .list .sequence, .list .byteSequence,
    .basic .bytes, .basic .uint, .basic .bool] = standard := rfl

theorem ofAdded_append (added : List Stock) (a : Stock) :
    ofAdded (added ++ [a]) = (ofAdded added).add a := by
  rw [ofAdded, List.foldl_append]
  rfl

/-- No accessor of another category is found. -/
theorem find?_eq_none {α : Type} [Accessor α] (stock : α → Stock)
    (same : ∀ b, (stock b).eligible s d = eligible s d b) {a : Stock}
    (eligible : a.eligible s d = true) (other : ∀ b, (stock b).category ≠ a.category)
    (as : List α) : as.find? (Registry.eligible s d) = none := by
  refine List.find?_eq_none.mpr fun b _ found => ?_
  exact other b (Stock.category_eq ((same b).trans found) eligible)

/-- An accessor that is added is found if it suits; else it changes nothing. -/
theorem direct?_add (a : Stock) : (r.add a).direct? s d [] =
    if a.eligible s d = true then some (a.within []) else r.direct? s d [] := by
  have noBasic := @find?_eq_none s d _ _ Stock.basic fun _ => rfl
  have noList := @find?_eq_none s d _ _ Stock.list fun _ => rfl
  have noUnion := @find?_eq_none s d _ _ Stock.union fun _ => rfl
  split
  · rename_i suits
    cases a with
    | basic a =>
      have found : ((a :: r.basic).find? (eligible s d)) = some a := List.find?_cons_of_pos suits
      simp only [direct?, basicAccessor?, Stock.within, add, addBasic, found]
      rfl
    | list a =>
      have found : ((a :: r.list).find? (eligible s d)) = some a := List.find?_cons_of_pos suits
      simp only [direct?, basicAccessor?, Stock.within, add, addList, found,
        noBasic suits fun _ => show "basic" ≠ "list" by decide]
      rfl
    | union a =>
      have found : ((a :: r.union).find? (eligible s d)) = some a := List.find?_cons_of_pos suits
      simp only [direct?, basicAccessor?, Stock.within, add, addUnion, found,
        noBasic suits fun _ => show "basic" ≠ "union" by decide,
        noList suits fun _ => show "list" ≠ "union" by decide]
      rfl
    | container a =>
      have found : ((a :: r.container).find? (eligible s d)) = some a :=
        List.find?_cons_of_pos suits
      simp only [direct?, basicAccessor?, Stock.within, add, addContainer, found,
        noBasic suits fun _ => show "basic" ≠ "container" by decide,
        noList suits fun _ => show "list" ≠ "container" by decide,
        noUnion suits fun _ => show "union" ≠ "container" by decide]
      rfl
  · rename_i unsuited
    cases a with
    | basic a =>
      have skipped := @List.find?_cons_of_neg _ (eligible s d) a r.basic unsuited
      simp only [direct?, basicAccessor?, add, addBasic, skipped]
    | list a =>
      have skipped := @List.find?_cons_of_neg _ (eligible s d) a r.list unsuited
      simp only [direct?, basicAccessor?, add, addList, skipped]
    | union a =>
      have skipped := @List.find?_cons_of_neg _ (eligible s d) a r.union unsuited
      simp only [direct?, basicAccessor?, add, addUnion, skipped]
    | container a =>
      have skipped := @List.find?_cons_of_neg _ (eligible s d) a r.container unsuited
      simp only [direct?, basicAccessor?, add, addContainer, skipped]

/-- Of the accessors that were added the last one that suits is found. -/
theorem direct?_ofAdded (added : List Stock) : (ofAdded added).direct? s d [] =
    (added.reverse.find? (Stock.eligible s d)).map (Stock.within []) := by
  induction added using List.reverseRecOn with
  | nil => rfl
  | append_singleton added a ih =>
    rw [ofAdded_append, direct?_add, ih, List.reverse_append, List.reverse_singleton,
      List.singleton_append]
    split
    · rename_i suits
      rw [List.find?_cons_of_pos suits]
      rfl
    · rename_i unsuited
      rw [List.find?_cons_of_neg unsuited]

/-- What is found among the accessors that were added is the last one that suits. -/
theorem exists_of_direct? {access : Access} (found : (ofAdded added).direct? s d [] = some access) :
    ∃ before chosen after, added = before ++ chosen :: after ∧ chosen.Suits s d ∧
      (∀ a ∈ after, ¬ a.Suits s d) ∧ access = chosen.within [] := by
  rw [direct?_ofAdded, Option.map_eq_some_iff] at found
  obtain ⟨chosen, first, rfl⟩ := found
  obtain ⟨suits, later, earlier, split, others⟩ := List.find?_eq_some_iff_append.mp first
  refine ⟨earlier.reverse, chosen, later.reverse, ?_, Stock.eligible_iff.mp suits,
    fun a mem suitable => ?_, rfl⟩
  · rw [← List.reverse_reverse added, split]
    simp
  · have refused := others a (List.mem_reverse.mp mem)
    rw [Stock.eligible_iff.mpr suitable] at refused
    cases refused

/-- A search that succeeds was for a shape of the table. -/
theorem lt_size_of_resolve {id : ShapeId} {field hint : Option String} {access : Access}
    (resolved : (ofAdded added).resolve s (s.use id field hint) = .ok access) : id < s.size := by
  by_contra outside
  have undeclared := declaration?_eq_none outside
  rw [(resolve_plain fun next f same => nomatch undeclared.symm.trans same).2] at resolved
  split at resolved
  · rename_i found
    obtain ⟨-, chosen, -, -, suits, -⟩ := exists_of_direct? found
    obtain ⟨d, declared, -⟩ := Stock.category_of_eligible (Stock.eligible_iff.mpr suits)
    rw [shape_use, undeclared] at declared
    cases declared
  · cases resolved

end Registry

/-- An accessor of the category of the declaration makes an outline. -/
theorem Catalog.exists_outline_of_category {c : Catalog} {d : Descriptor} {a : Stock}
    {fs : List Rebuild} {declaration : Declaration}
    (resolved : c.registry.resolve c.schema d = .ok (a.within fs))
    (declared : c.schema.declaration? (c.schema.structural d).shape = some declaration)
    (category : a.category = declaration.category) : ∃ outline, c.outline d = .ok outline := by
  rw [Catalog.outline, resolved, declared]
  rw [Stock.category] at category
  cases a with
  | basic a => exact ⟨_, rfl⟩
  | list a =>
    cases declaration with
    | sequence element size => exact ⟨_, rfl⟩
    | _ => simp [Stock.within, Access.category, Declaration.category] at category
  | union a =>
    cases declaration with
    | union variants nullable => exact ⟨_, rfl⟩
    | _ => simp [Stock.within, Access.category, Declaration.category] at category
  | container a =>
    cases declaration with
    | container fields => exact ⟨_, rfl⟩
    | _ => simp [Stock.within, Access.category, Declaration.category] at category

namespace Registry

/-- The search for an accessor of a use of a shape, among any that were added one after the other.
If it succeeds, the shape travels as one with a declaration of its own, which the walk to the
structure ends at too.  The accessor is the one that was added last among those that support that
shape and answer to the hint; it is of the category of the declaration, and stands inside one
wrapper for each link, with the function of the link.  A node is therefore never refused because
its accessor is of another category than its declaration. -/
theorem resolve_ofAdded {s : Schema} {id : ShapeId} {field hint : Option String}
    {added : List Stock} {access : Access} (wf : s.WellFormed)
    (resolved : (ofAdded added).resolve s (s.use id field hint) = .ok access) :
    ∃ links last declaration before chosen after,
      s.TravelsAs id links last ∧ s.structural (s.use id field hint) = s.use last field hint ∧
      s.declaration? last = some declaration ∧ access.category = declaration.category ∧
      added = before ++ chosen :: after ∧ chosen.category = declaration.category ∧
      chosen.Suits s (s.use last field hint) ∧
      (∀ a ∈ after, ¬ a.Suits s (s.use last field hint)) ∧
      access = chosen.within (links.map (·.2)) ∧
      ∀ c : Catalog, c.schema = s → c.registry = ofAdded added →
        ∃ outline, c.outline (s.use id field hint) = .ok outline := by
  obtain ⟨links, last, travels, -⟩ := exists_travelsAs wf (lt_size_of_resolve resolved)
  obtain ⟨structural, answer⟩ := @resolve_of_travelsAs (ofAdded added) s id last links field hint
    wf travels
  have found := answer.symm.trans resolved
  split at found
  · rename_i bare direct
    obtain ⟨before, chosen, after, split, suits, others, rfl⟩ := exists_of_direct? direct
    obtain ⟨declaration, declared, category⟩ :=
      Stock.category_of_eligible (Stock.eligible_iff.mpr suits)
    rw [shape_use] at declared
    obtain rfl : chosen.within (links.map (·.2)) = access := by
      rw [← Except.ok.inj found]
      exact chosen.through_within.symm
    refine ⟨links, last, declaration, before, chosen, after, travels, structural, declared,
      (Stock.category_within _ chosen).trans category, split, category, suits, others, rfl, ?_⟩
    rintro c rfl registry
    refine Catalog.exists_outline_of_category (registry ▸ resolved) ?_ category
    rw [structural, shape_use, declared]
  · cases found

/-- A number two links away, among accessors of which the one for numbers was added twice. -/
theorem resolve_ofAdded_epoch :
    let never : Rebuild := fun _ => .error "never"
    let s : Schema := { entries := [⟨"uint64", .basic (.uint 8)⟩, ⟨"Slot", .subclass 0 .ok⟩,
      ⟨"Epoch", .subclass 1 never⟩] }
    let added : List Stock := [.basic .uint, .list .sequence, .basic .uint, .basic .bool]
    let d := s.use 2 (some "epoch") (some "integer")
    (ofAdded added).resolve s d = .ok (.basic ⟨.uint, [never, .ok]⟩) ∧
      ∃ outline, Catalog.outline { schema := s, registry := ofAdded added } d = .ok outline := by
  intro never s added d
  have wf : s.WellFormed := by decide
  have resolved : (ofAdded added).resolve s d = .ok (.basic ⟨.uint, [never, .ok]⟩) := rfl
  obtain ⟨links, last, declaration, before, chosen, after, -, -, -, -, -, -, -, -, -, outlined⟩ :=
    resolve_ofAdded wf resolved
  exact ⟨resolved, outlined _ rfl rfl⟩

end Registry

end SimpleSerialize
