/-
Shapes that travel as others.

A shape that is declared as a subclass, of a shape that may be declared as one in turn, travels as
the shape at the end of the chain.  The search for an accessor walks that chain to its end, while
the wrappers around the accessor walk it again, one link each.  Main statements:

* `Schema.TravelsAs.descend_eq`: the wrappers reach the use of a shape that the search ended at;
* `Catalog.format_through`: a shape has the format of the one that it travels as, with the links of
  the chain around its accessor;
* `Format.agreesOn_through`: the links do not change what is written or hashed;
* `Format.decode_through`: they are handed what is read without them, innermost first.
-/
import SimpleSerialize.Proofs.Agreement
import SimpleSerialize.Proofs.Session

namespace SimpleSerialize

/-! ### Chains -/

namespace Schema

/-- A use of a shape in a field and with a hint, either of which may be missing. -/
def use (s : Schema) (id : ShapeId) (field hint : Option String) : Descriptor :=
  { s.descriptor id with field := field, hint := hint }

/-- A shape travels as another: it is declared as a subclass of a shape that is that one, or travels
as it.  The shapes on the way are listed by name, outermost first, each with what it makes of values
decoded as its target. -/
inductive TravelsAs (s : Schema) : ShapeId → List (String × Rebuild) → ShapeId → Prop
  | target {id : ShapeId} {d : Declaration} : s.declaration? id = some d →
    (∀ next rebuild, d ≠ .subclass next rebuild) → TravelsAs s id [] id
  | link {id next last : ShapeId} {rebuild : Rebuild} {links : List (String × Rebuild)} :
    s.declaration? id = some (.subclass next rebuild) → TravelsAs s next links last →
    TravelsAs s id ((s.name id, rebuild) :: links) last

variable {s : Schema} {id next last : ShapeId} {rebuild : Rebuild} {links : List (String × Rebuild)}
  {field hint : Option String}

@[simp] theorem shape_use : (s.use id field hint).shape = id := shape_descriptor s id

theorem use_none : s.use id none none = s.descriptor id := by
  rw [use, descriptor]
  split <;> rfl

theorem substituted?_use (declared : s.declaration? id = some (.subclass next rebuild)) :
    s.substituted? (s.use id field hint) = some (s.use next field hint) := by
  simp only [substituted?, use, descriptor, declared, Option.map_some]

theorem substituted?_use_last {d : Declaration} (declared : s.declaration? id = some d)
    (plain : ∀ next rebuild, d ≠ .subclass next rebuild) :
    s.substituted? (s.use id field hint) = none := by
  cases d with
  | subclass next rebuild => exact absurd rfl (plain next rebuild)
  | _ => simp only [substituted?, use, descriptor, declared, Option.map_none]

namespace TravelsAs

theorem declared (travels : s.TravelsAs id links last) :
    ∃ d, s.declaration? last = some d ∧ ∀ next rebuild, d ≠ .subclass next rebuild := by
  induction travels with
  | target declared plain => exact ⟨_, declared, plain⟩
  | link _ _ ih => exact ih

/-- The shape at the end of a chain travels as itself. -/
theorem itself (travels : s.TravelsAs id links last) : s.TravelsAs last [] last := by
  obtain ⟨d, declared, plain⟩ := travels.declared
  exact .target declared plain

/-- A chain has no more links than there are shapes before its first. -/
theorem length_le (wf : s.WellFormed) (travels : s.TravelsAs id links last) :
    links.length ≤ id := by
  induction travels with
  | target => exact Nat.zero_le _
  | @link id next last rebuild links declared travels ih =>
    obtain ⟨entry, here, same⟩ := Option.map_eq_some_iff.mp declared
    have earlier : next < id := wf.references_lt id entry here next (by
      rw [same]
      exact List.mem_singleton_self next)
    exact Nat.lt_of_le_of_lt ih earlier

/-- The chain of a use of the shape ends at the use of the shape that it travels as. -/
theorem chainOf_eq (travels : s.TravelsAs id links last) {room : Nat}
    (enough : links.length ≤ room) :
    (s.chainOf room (s.use id field hint)).getLastD (s.use id field hint) = s.use last field hint ∧
      ((s.use id field hint :: s.chainOf room (s.use id field hint)).dropLast.map fun link =>
        s.rebuild link.shape) = links.map (·.2) := by
  induction travels generalizing room with
  | @target id d declared plain =>
    have stop : s.chainOf room (s.use id field hint) = [] := by
      cases room with
      | zero => rfl
      | succ room => rw [chainOf, substituted?_use_last declared plain]
    rw [stop]
    exact ⟨rfl, rfl⟩
  | link declared _ ih =>
    -- The walk takes one link and goes on with room for those that are left.
    cases room with
    | zero => cases enough
    | succ room =>
      obtain ⟨lastly, functions⟩ := ih (Nat.le_of_succ_le_succ enough)
      rw [chainOf, substituted?_use declared]
      constructor
      · rw [List.getLastD_cons, lastly]
      · rw [List.dropLast_cons_cons, List.map_cons, functions, List.map_cons, shape_use,
          Schema.rebuild, declared]

theorem structural_eq (wf : s.WellFormed) (travels : s.TravelsAs id links last) :
    s.structural (s.use id field hint) = s.use last field hint := by
  rw [structural, chain, shape_use]
  exact (travels.chainOf_eq (travels.length_le wf)).1

theorem wrappers_eq (wf : s.WellFormed) (travels : s.TravelsAs id links last) :
    Registry.wrappers s (s.use id field hint) = links.map (·.2) := by
  rw [Registry.wrappers, chain, shape_use]
  exact (travels.chainOf_eq (travels.length_le wf)).2

/-- The wrappers are handed the uses along the chain, one after the other. -/
theorem descend_eq (travels : s.TravelsAs id links last) :
    Wrapped.descend s (links.map (·.2)) (s.use id field hint) = (links, s.use last field hint) := by
  induction travels with
  | target => rfl
  | link declared _ ih =>
    rw [List.map_cons, Wrapped.descend, substituted?_use declared, Option.getD_some, ih, shape_use]

end TravelsAs

end Schema

/-! ### Resolution -/

namespace Handler

variable {α : Type}

/-- Puts more links around a handler. -/
def through (links : List (String × Rebuild)) (h : Handler α) : Handler α :=
  { h with links := links ++ h.links }

/-- A decoded value passes the links that were there first. -/
theorem finish_through (links : List (String × Rebuild)) (h : Handler α) (v : Value) :
    (h.through links).finish v = h.finish v >>= fun w => links.reverse.foldlM relink w := by
  rw [finish, finish, through, List.reverse_append, List.foldlM_append]

/-- A value that the links refuse is refused by one of them, to which those inside it have handed
something. -/
theorem of_refused {links : List (String × Rebuild)} {v : Value} {e : DecodeError}
    (h : links.reverse.foldlM relink v = .error e) :
    ∃ outer link inner w reason, links = outer ++ link :: inner ∧
      inner.reverse.foldlM relink v = .ok w ∧ link.2 w = .error reason ∧
      e = .rejected link.1 reason := by
  induction links with
  | nil => cases h
  | cons link links ih =>
    rw [List.reverse_cons, List.foldlM_append] at h
    -- The outermost link comes last: it refuses only what all the others accepted.
    cases inside : links.reverse.foldlM relink v with
    | error e' =>
      rw [inside] at h
      cases h
      obtain ⟨outer, refusing, inner, w, reason, rfl, found⟩ := ih inside
      exact ⟨link :: outer, refusing, inner, w, reason, rfl, found⟩
    | ok w =>
      rw [inside, ok_bind, List.foldlM_cons, relink] at h
      cases answer : link.2 w with
      | ok u =>
        rw [answer] at h
        cases h
      | error reason =>
        rw [answer] at h
        cases h
        exact ⟨[], link, links, w, reason, rfl, inside, answer, rfl⟩

end Handler

/-- Puts more wrappers around an accessor. -/
def Access.through (fs : List Rebuild) : Access → Access
  | basic a => basic ⟨a.base, fs ++ a.wrappers⟩
  | list a => list ⟨a.base, fs ++ a.wrappers⟩
  | union a => union ⟨a.base, fs ++ a.wrappers⟩
  | container a => container ⟨a.base, fs ++ a.wrappers⟩

/-- Puts more links around the handler of a node. -/
def Outline.through (links : List (String × Rebuild)) : Outline → Outline
  | basic a => basic (a.through links)
  | list a size element => list (a.through links) size element
  | union a nullable variants => union (a.through links) nullable variants
  | container a fields => container (a.through links) fields

/-- The same node under another heading, with more links around its handler. -/
def Format.through (head : Heading) (links : List (String × Rebuild)) : Format → Format
  | basic _ a => basic head (a.through links)
  | list _ a regime element => list head (a.through links) regime element
  | union _ a nullable variants => union head (a.through links) nullable variants
  | container _ a fields size => container head (a.through links) fields size

/-- What kind of accessor handles a format. -/
def Format.category : Format → String
  | basic _ _ => "basic"
  | list _ _ _ _ => "list"
  | union _ _ _ _ => "union"
  | container _ _ _ _ => "container"

theorem Format.fixedSize_through (head : Heading) (links : List (String × Rebuild)) (f : Format) :
    (f.through head links).fixedSize = f.fixedSize := by
  cases f with
  | list _ _ regime _ => cases regime <;> rfl
  | _ => rfl

theorem Outline.parts_through (links : List (String × Rebuild)) (o : Outline) :
    (o.through links).parts = o.parts := by
  cases o <;> rfl

/-- The wrappers do not matter for the choice of an accessor. -/
theorem Registry.direct?_through (r : Registry) (s : Schema) (d : Descriptor) (fs : List Rebuild) :
    r.direct? s d fs = (r.direct? s d []).map (Access.through fs) := by
  rw [direct?, direct?]
  cases r.basicAccessor? s d with
  | some a => simp [Access.through]
  | none =>
    cases r.list.find? (eligible s d) with
    | some a => simp [Access.through]
    | none =>
      cases r.union.find? (eligible s d) with
      | some a => simp [Access.through]
      | none => cases r.container.find? (eligible s d) <;> simp [Access.through]

namespace Catalog

open Schema

variable {c : Catalog} {id last : ShapeId} {links : List (String × Rebuild)}
  {field hint : Option String} {outline : Outline} {parts : List Format} {f : Format} {bound : Nat}

theorem resolve_through (wf : c.schema.WellFormed) (travels : c.schema.TravelsAs id links last)
    {access : Access}
    (h : c.registry.resolve c.schema (c.schema.use last field hint) = .ok access) :
    c.registry.resolve c.schema (c.schema.use id field hint) =
      .ok (access.through (links.map (·.2))) := by
  rw [Registry.resolve, travels.itself.structural_eq wf, travels.itself.wrappers_eq wf] at h
  rw [Registry.resolve, travels.structural_eq wf, travels.wrappers_eq wf, Registry.direct?_through]
  simp only [List.map_nil] at h
  split at h
  · rename_i found
    cases h
    rw [found]
    rfl
  · cases h

theorem fit_through {α β : Type} (travels : c.schema.TravelsAs id links last) (a : α)
    (read : α → Descriptor → β) :
    (Wrapped.mk a (links.map (·.2))).fit c.schema (c.schema.use id field hint) read =
      ((Wrapped.mk a []).fit c.schema (c.schema.use last field hint) read).through links := by
  simp only [Wrapped.fit, travels.descend_eq, Wrapped.descend, Handler.through, List.append_nil]

theorem outline_through (wf : c.schema.WellFormed) (travels : c.schema.TravelsAs id links last)
    (h : c.outline (c.schema.use last field hint) = .ok outline) :
    c.outline (c.schema.use id field hint) = .ok (outline.through links) := by
  obtain ⟨d, declared, -⟩ := travels.declared
  rw [Catalog.outline, bind_eq_ok] at h ⊢
  obtain ⟨access, haccess, h⟩ := h
  refine ⟨_, resolve_through wf travels haccess, ?_⟩
  have found := of_resolve haccess
  simp only [travels.itself.wrappers_eq wf, List.map_nil] at found
  simp only [travels.itself.structural_eq wf, travels.structural_eq wf, shape_use, declared] at h ⊢
  -- Both uses are given the same accessor, the one with the links around it.
  obtain ⟨a, rfl, -⟩ | ⟨a, rfl, -⟩ | ⟨a, rfl, -⟩ | ⟨a, rfl, -⟩ := found
  · cases h
    simp only [Access.through, List.append_nil, Wrapped.basicAt, fit_through travels]
    rfl
  · cases d with
    | sequence element size =>
      cases h
      simp only [Access.through, List.append_nil, Wrapped.plainAt, fit_through travels]
      rfl
    | _ => cases h
  · cases d with
    | union variants nullable =>
      cases h
      simp only [Access.through, List.append_nil, Wrapped.plainAt, fit_through travels]
      rfl
    | _ => cases h
  · cases d with
    | container fields =>
      cases h
      simp only [Access.through, List.append_nil, Wrapped.plainAt, fit_through travels]
      rfl
    | _ => cases h

/-- The number of elements that a sequence declares does not depend on its name. -/
theorem regime_rename {name : String} {size : SizeRule} {regime : Regime}
    (h : c.regime name size = .ok regime) (other : String) : c.regime other size = .ok regime := by
  have extent {e : Extent} {n : UInt64} (h : c.extent name e = .ok n) :
      c.extent other e = .ok n := by
    cases e with
    | literal m => exact h
    | named key =>
      simp only [Catalog.extent, SizeVars.require] at h ⊢
      split at h
      · exact h
      · cases h
  cases size with
  | vector length =>
    simp only [Catalog.regime, bind_eq_ok] at h ⊢
    obtain ⟨n, hn, h⟩ := h
    refine ⟨n, extent hn, ?_⟩
    split at h
    · cases h
    · rename_i positive
      rw [if_neg positive]
      exact h
  | bounded limit =>
    simp only [Catalog.regime, bind_eq_ok] at h ⊢
    obtain ⟨n, hn, h⟩ := h
    exact ⟨n, extent hn, h⟩
  | unbounded => exact h

theorem checkFixedSize_through (head : Heading) (links : List (String × Rebuild))
    (h : checkFixedSize f = .ok f) :
    checkFixedSize (f.through head links) = .ok (f.through head links) := by
  obtain ⟨-, small⟩ := checkFixedSize_eq_ok.mp h
  refine checkFixedSize_eq_ok.mpr ⟨rfl, ?_⟩
  rw [Format.fixedSize_through]
  exact small

theorem finish_through (h : c.finish (c.schema.use last field hint) outline parts = .ok f) :
    c.finish (c.schema.use id field hint) (outline.through links) parts =
      .ok (f.through ⟨c.schema.name id, c.schema.use id field hint⟩ links) := by
  cases outline with
  | basic a =>
    cases h
    simp only [Outline.through, finish, shape_use]
    rfl
  | list a size element =>
    cases parts with
    | nil => cases h
    | cons part parts =>
      simp only [Outline.through, finish, bind_eq_ok, shape_use] at h ⊢
      obtain ⟨regime, hregime, h⟩ := h
      obtain rfl := eq_of_checkFixedSize h
      exact ⟨regime, regime_rename hregime _, checkFixedSize_through _ links h⟩
  | union a nullable variants =>
    cases h
    simp only [Outline.through, finish, shape_use]
    rfl
  | container a fields =>
    simp only [Outline.through, finish, shape_use] at h ⊢
    obtain rfl := eq_of_checkFixedSize h
    exact checkFixedSize_through _ links h

/-- A use of a shape that travels as another has the format of the other, with the links of the
chain around its accessor. -/
theorem formatBelow_through (wf : c.schema.WellFormed) (travels : c.schema.TravelsAs id links last)
    (h : c.formatBelow bound (c.schema.use last field hint) = .ok f) :
    c.formatBelow bound (c.schema.use id field hint) =
      .ok (f.through ⟨c.schema.name id, c.schema.use id field hint⟩ links) := by
  cases bound with
  | zero => cases h
  | succ bound =>
    obtain ⟨outline, parts, ho, hp, h⟩ := formatBelow_succ_eq_ok.mp h
    rw [← Outline.parts_through links] at hp
    exact formatBelow_succ_eq_ok.mpr
      ⟨_, parts, outline_through wf travels ho, hp, finish_through h⟩

/-- A shape that travels as another has the format of the other, with the links of the chain around
its accessor. -/
theorem format_through (wf : c.schema.WellFormed) (travels : c.schema.TravelsAs id links last)
    (h : c.format (c.schema.descriptor last) = .ok f) :
    c.format (c.schema.descriptor id) =
      .ok (f.through ⟨c.schema.name id, c.schema.descriptor id⟩ links) := by
  rw [← use_none] at h ⊢
  exact formatBelow_through wf travels h

end Catalog

/-! ### Walks -/

namespace Format

variable {hasher : Hasher} {held : Value → Prop} {f : Format} {head : Heading}
  {links : List (String × Rebuild)} {v : Value} {bytes : Bytes}

/-- Neither the bytes nor the roots of a value depend on the links. -/
theorem agreesOn_through (f : Format) : AgreesOn hasher held f (f.through head links) := by
  have same (fs : List Format) : List.Forall₂ (Agrees hasher) fs fs :=
    List.forall₂_same.mpr fun _ _ => .refl _
  cases f with
  | basic _ a => exact agreesOn_basic rfl
  | list _ a regime element =>
    exact agreesOn_list (.refl element) (fun _ _ _ _ => .refl _) fun _ _ _ _ _ _ _ _ => trivial
  | union _ a nullable variants =>
    exact agreesOn_union (same variants) fun _ _ _ _ _ _ _ => trivial
  | container _ a fields size => exact agreesOn_container (same fields) fun _ _ _ _ _ _ => trivial

/-- A value is read under one heading if it is read under another. -/
theorem decode_heading (f : Format) (bytes : Bytes) :
    AgreeUpTo DecodeError.kind (f.decode bytes) ((f.through head []).decode bytes) := by
  cases f with
  | basic _ a =>
    rw [decode, through, decode]
    exact (checkSize_agree ..).bind fun _ => .refl _
  | list _ a regime element =>
    rw [decode, through, decode]
    exact (Layout.elementWindows_agree ..).bind fun _ => .refl _
  | union _ a nullable variants =>
    simp only [decode, through]
    refine .ite (.error rfl) ?_
    split
    · exact .error rfl
    · exact .ite (.refl _) (.error rfl)
    · exact .refl _
  | container _ a fields size =>
    rw [decode, through, decode]
    exact (Layout.windows_agree ..).bind fun _ => .refl _

/-- Links are handed what is read without them. -/
theorem decode_through (f : Format) (bytes : Bytes) :
    (f.through head links).decode bytes =
      (f.through head []).decode bytes >>= fun v => links.reverse.foldlM Handler.relink v := by
  have finish {α : Type} (a : Handler α) : (a.through links).finish = fun v =>
      (a.through []).finish v >>= fun v => links.reverse.foldlM Handler.relink v :=
    funext (a.finish_through links)
  cases f with
  | basic _ a =>
    simp only [through, decode, Handler.decode, bind_assoc, finish]
    rfl
  | list _ a regime element =>
    simp only [through, decode, Handler.createList, bind_assoc, finish]
    rfl
  | union _ a nullable variants =>
    simp only [through, decode, Handler.createUnion, finish]
    split
    · rfl
    · split
      · rfl
      · split
        · rfl
        · rfl
      · rw [bind_assoc]
  | container _ a fields size =>
    simp only [through, decode, Handler.createContainer, bind_assoc, finish]

theorem decode_through_of_ok (h : f.decode bytes = .ok v) :
    (f.through head links).decode bytes = links.reverse.foldlM Handler.relink v := by
  rw [decode_through, (f.decode_heading bytes).ok_iff.mp h, ok_bind]

/-- A value is read through links exactly if it is read without them and they accept it. -/
theorem decode_through_eq_ok {w : Value} : (f.through head links).decode bytes = .ok w ↔
    ∃ v, f.decode bytes = .ok v ∧ links.reverse.foldlM Handler.relink v = .ok w := by
  rw [decode_through, bind_eq_ok]
  exact exists_congr fun v => and_congr_left fun _ => (f.decode_heading bytes).ok_iff.symm

end Format

end SimpleSerialize
