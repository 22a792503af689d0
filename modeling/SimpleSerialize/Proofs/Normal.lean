/-
Normal values.

Writing looks through overlays and accepts integers and sequences of bytes in more than one form;
reading gives one form only.  `Format.normal` brings a value into that form, and `Format.IsNormal`
says which values have it already.  Main statements:

* `Format.normal_of_isNormal`: a normal value stays as it is;
* `Format.isNormal_normal`: what can be written becomes normal.
-/
import SimpleSerialize.Proofs.Walk

namespace SimpleSerialize

namespace Value

/-- The value under any overlays; one that was pruned is left as it is. -/
def shown (v : Value) : Value := v.concrete.getD v

/-- The values that a value is made of. -/
def parts : Value → List Value
  | .list items => items
  | .container fields => fields
  | .union _ body => body.toList
  | .overlay _ kept => kept.toList
  | _ => []

/-- No part of the value has a root of its own. -/
def Bare : Value → Prop := Everywhere parts fun v => v.root? = none

/-- The byte that an integer stands for. -/
def byte : Value → UInt8
  | .uint n => n.toUInt8
  | _ => 0

end Value

/-- The form in which a basic value is read: integers of up to eight bytes as words, and wider ones
as numbers of any size. -/
def BasicForm.normal : BasicForm → Value → Value
  | uint width, .uint n => if width ≤ 8 then .uint n else .bigUint n.toNat
  | uint width, .bigUint n => if width ≤ 8 then .uint (UInt64.ofNat n) else .bigUint n
  | _, v => v

/-- The basic values that have that form. -/
inductive BasicForm.IsNormal : BasicForm → Value → Prop
  | bool (b : Bool) : IsNormal .bool (.bool b)
  | word {width : Nat} (n : UInt64) : width ≤ 8 → IsNormal (.uint width) (.uint n)
  | number {width : Nat} (n : Nat) : 8 < width → IsNormal (.uint width) (.bigUint n)
  | bytes {length : Nat} (bs : Bytes) : IsNormal (.bytes length) (.bytes bs)

theorem Value.shown_eq {v w : Value} (h : v.concrete = some w) : v.shown = w := by
  rw [shown, h, Option.getD_some]

theorem BasicForm.IsNormal.root?_eq {form : BasicForm} {v : Value} (h : form.IsNormal v) :
    v.root? = none := by
  cases h <;> rfl

/-- What can be written becomes normal. -/
theorem BasicForm.isNormal_normal {form : BasicForm} {shape : String} {v : Value} {bytes : Bytes}
    (h : form.encode shape v = .ok bytes) : form.IsNormal (form.normal v) := by
  rw [encode.eq_def] at h
  split at h
  · exact .bool _
  · cases h
  · rw [normal]
    split
    · exact .word _ ‹_›
    · exact .number _ (Nat.lt_of_not_le ‹_›)
  · rw [normal]
    split
    · exact .word _ ‹_›
    · exact .number _ (Nat.lt_of_not_le ‹_›)
  · cases h
  · exact .bytes _
  · cases h

theorem BasicForm.normal_of_isNormal {form : BasicForm} {v : Value} (h : form.IsNormal v) :
    form.normal v = v := by
  cases h with
  | bool => rfl
  | word n narrow => rw [normal, if_pos narrow]
  | number n wide => rw [normal, if_neg (Nat.not_le.mpr wide)]
  | bytes => rfl

namespace Format

mutual

/-- The form in which a value is read once it was written. -/
def normal : Format → Value → Value
  | basic _ a, v => a.base.normal v.shown
  | list _ a _ element, v =>
    match a.base, v.shown with
    | .sequence, .list items => .list (items.map element.normal)
    | .byteSequence, .list items => .bytes (items.map fun item => (element.normal item).byte)
    | _, w => w
  | union _ _ nullable variants, v =>
    match v.shown with
    | .union selector body =>
      match Variant.select nullable (normals variants) selector with
      | some (.body normalBody) => .union selector (body.map normalBody)
      | _ => .union selector none
    | w => w
  | container _ _ fields _, v =>
    match v.shown with
    | .container values =>
      .container ((normals fields).zipWith (fun normalField value => normalField value) values)
    | w => w

/-- How each of some formats brings a value into its form. -/
def normals : List Format → List (Value → Value)
  | [] => []
  | f :: fs => f.normal :: normals fs

end

@[simp] theorem normals_eq (fs : List Format) : normals fs = fs.map normal := by
  induction fs with
  | nil => rfl
  | cons f fs ih => rw [normals, ih, List.map_cons]

/-- The values that have the form in which a format reads them. -/
inductive IsNormal : Format → Value → Prop
  | basic {head : Heading} {a : Handler BasicForm} {v : Value} :
    a.base.IsNormal v → IsNormal (basic head a) v
  | items {head : Heading} {a : Handler ListAccessor} {regime : Regime} {element : Format}
    {items : List Value} :
    a.base = .sequence → (∀ item ∈ items, IsNormal element item) →
      IsNormal (list head a regime element) (.list items)
  | bytes {head : Heading} {a : Handler ListAccessor} {regime : Regime} {element : Format}
    {bs : Bytes} :
    a.base = .byteSequence → IsNormal (list head a regime element) (.bytes bs)
  /-- Nothing stands under the empty case. -/
  | empty {head : Heading} {a : Handler UnionAccessor} {nullable : Bool} {variants : List Format}
    {selector : UInt32} :
    Variant.select nullable variants selector = some .empty →
      IsNormal (union head a nullable variants) (.union selector none)
  | body {head : Heading} {a : Handler UnionAccessor} {nullable : Bool} {variants : List Format}
    {selector : UInt32} {f : Format} {w : Value} :
    Variant.select nullable variants selector = some (.body f) → IsNormal f w →
      IsNormal (union head a nullable variants) (.union selector (some w))
  | container {head : Heading} {a : Handler ContainerAccessor} {fields : List Format}
    {size : Option Nat} {values : List Value} :
    List.Forall₂ IsNormal fields values → IsNormal (container head a fields size) (.container values)

/-! ### One node -/

section Node

-- The equations are made here, for the lemmas of all categories.
attribute [local simp] normal

variable {head : Heading} {regime : Regime} {element : Format} {nullable : Bool}
  {variants fields : List Format} {size : Option Nat} {v w : Value}

theorem normal_basic {a : Handler BasicForm} (shown : v.concrete = some w) :
    (basic head a).normal v = a.base.normal w := by
  rw [normal, Value.shown_eq shown]

theorem normal_items {a : Handler ListAccessor} {items : List Value} (base : a.base = .sequence)
    (shown : v.concrete = some (.list items)) :
    (list head a regime element).normal v = .list (items.map element.normal) := by
  rw [normal, Value.shown_eq shown, base]

theorem normal_byteItems {a : Handler ListAccessor} {items : List Value}
    (base : a.base = .byteSequence) (shown : v.concrete = some (.list items)) :
    (list head a regime element).normal v =
      .bytes (items.map fun item => (element.normal item).byte) := by
  rw [normal, Value.shown_eq shown, base]

theorem normal_bytes {a : Handler ListAccessor} {bs : Bytes}
    (shown : v.concrete = some (.bytes bs)) :
    (list head a regime element).normal v = .bytes bs := by
  rw [normal, Value.shown_eq shown]
  cases a.base <;> rfl

theorem normal_empty {a : Handler UnionAccessor} {selector : UInt32} {body : Option Value}
    (chosen : Variant.select nullable variants selector = some .empty)
    (shown : v.concrete = some (.union selector body)) :
    (union head a nullable variants).normal v = .union selector none := by
  rw [normal, Value.shown_eq shown, normals_eq]
  simp only [Variant.select_map, chosen, Option.map_some, Variant.map]

theorem normal_body {a : Handler UnionAccessor} {selector : UInt32} {body : Option Value}
    {f : Format} (chosen : Variant.select nullable variants selector = some (.body f))
    (shown : v.concrete = some (.union selector body)) :
    (union head a nullable variants).normal v = .union selector (body.map f.normal) := by
  rw [normal, Value.shown_eq shown, normals_eq]
  simp only [Variant.select_map, chosen, Option.map_some, Variant.map]

theorem normal_container {a : Handler ContainerAccessor} {values : List Value}
    (shown : v.concrete = some (.container values)) :
    (container head a fields size).normal v = .container (fields.zipWith normal values) := by
  rw [normal, Value.shown_eq shown, normals_eq]
  simp only [List.zipWith_map_left]

end Node

/-! ### Normal values -/

variable {f : Format} {v : Value} {bytes : Bytes}

theorem IsNormal.root?_eq (h : f.IsNormal v) : v.root? = none := by
  cases h with
  | basic h => exact BasicForm.IsNormal.root?_eq h
  | _ => rfl

theorem IsNormal.concrete (h : f.IsNormal v) : v.concrete = some v :=
  concrete_of_root? h.root?_eq

/-- A normal value stays as it is. -/
theorem normal_of_isNormal (h : f.IsNormal v) : f.normal v = v := by
  have shown := h.concrete
  induction f generalizing v with
  | basic head a =>
    cases h with
    | basic h => rw [normal_basic shown, BasicForm.normal_of_isNormal h]
  | list head a regime element ih =>
    cases h with
    | items base each =>
      rw [normal_items base shown]
      refine congrArg Value.list ((List.map_congr_left fun item mem => ?_).trans (List.map_id _))
      exact ih (each item mem) (each item mem).concrete
    | bytes base => exact normal_bytes shown
  | union head a nullable variants ih =>
    cases h with
    | empty chosen => exact normal_empty chosen shown
    | body chosen below =>
      rw [normal_body chosen shown, Option.map_some,
        ih _ (Variant.mem_of_select chosen) below below.concrete]
  | container head a fields size ih =>
    cases h with
    | container each =>
      rw [normal_container shown]
      -- The induction goes along the fields, and the container is not to be carried through it.
      clear shown
      refine congrArg Value.container ?_
      induction each with
      | nil => rfl
      | cons head _ ihTail =>
        rw [List.zipWith_cons_cons, ih _ List.mem_cons_self head head.concrete,
          ihTail fun f mem => ih f (List.mem_cons_of_mem _ mem)]

/-- What can be written becomes normal. -/
theorem isNormal_normal (h : f.encode v = .ok bytes) : f.IsNormal (f.normal v) := by
  induction f generalizing v bytes with
  | basic head a =>
    obtain ⟨w, shown, encoded⟩ := encode_basic_eq_ok.mp h
    rw [normal_basic shown]
    exact .basic (BasicForm.isNormal_normal encoded)
  | list head a regime element ih =>
    obtain ⟨w, items, bodies, shown, hitems, -, each, -⟩ := encode_list_eq_ok.mp h
    rcases ListAccessor.items_eq_ok.mp hitems with rfl | ⟨base, bs, rfl, -⟩
    · cases base : a.base with
      | sequence =>
        rw [normal_items base shown]
        exact .items base (List.forall_mem_map.mpr (forall_left each fun _ _ => ih))
      | byteSequence =>
        rw [normal_byteItems base shown]
        exact .bytes base
    · rw [normal_bytes shown]
      exact .bytes base
  | union head a nullable variants ih =>
    obtain ⟨w, selector, rest, shown, hs, -, chosen⟩ := encode_union_eq_ok.mp h
    obtain ⟨body, rfl⟩ := UnionAccessor.selector_eq_ok.mp hs
    rcases chosen with ⟨chosen, -⟩ | ⟨f, w, chosen, hbody, encoded⟩
    · rw [normal_empty chosen shown]
      exact .empty chosen
    · obtain rfl : body = some w := hbody
      rw [normal_body chosen shown]
      exact .body chosen (ih f (Variant.mem_of_select chosen) encoded)
  | container head a fields size ih =>
    obtain ⟨w, values, bodies, shown, hvalues, each, -⟩ := encode_container_eq_ok.mp h
    obtain rfl := ContainerAccessor.fieldsOf_eq_ok.mp hvalues
    rw [normal_container shown]
    clear hvalues shown h
    refine .container ?_
    induction each with
    | nil => exact .nil
    | cons head _ ihTail =>
      refine .cons (ih _ List.mem_cons_self head) ?_
      exact ihTail fun f mem => ih f (List.mem_cons_of_mem _ mem)

end Format

end SimpleSerialize
