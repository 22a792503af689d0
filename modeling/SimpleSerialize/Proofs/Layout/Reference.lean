/-
The layout of composites, counted out child by child.

`reference` writes a layout down from nothing but the encodings of the children: the fixed part is as
long as what stands in it, and each offset is that length with the lengths of all encodings before it
in the variable part.  No size is known in advance, and nothing is carried along from child to child.
Main statements:

* `header_append_bodies`: what `Written` asks for is the reference layout, if children of fixed size
  have the size that was expected of them;
* `written_iff_reference`: the same with the offsets that have to be written down;
* `exists_of_compose_error`: if one of them cannot be, that is what writing fails with.
-/
import Mathlib.Algebra.GroupWithZero.Nat
import SimpleSerialize.Proofs.Layout.Written

namespace SimpleSerialize.Layout

/-- A child of a composite: whether its size is fixed, and its encoding. -/
structure Child where
  fixed : Bool
  bytes : Bytes

/-- The bytes that a child takes in the fixed part. -/
def Child.slotLength (c : Child) : Nat := if c.fixed then c.bytes.length else offsetSize

/-- The bytes of a child in the variable part. -/
def Child.tail (c : Child) : Bytes := if c.fixed then [] else c.bytes

/-- The length of the variable part before some child. -/
def tailBefore (children : List Child) (i : Nat) : Nat :=
  ((children.take i).map (·.tail.length)).sum

/-- The offset of a child: the length of the fixed part, and that of the variable part before it. -/
def word (children : List Child) (i : Nat) : Nat :=
  (children.map (·.slotLength)).sum + tailBefore children i

/-- The fixed part, where `word` says what is written for a child whose size is not fixed. -/
def table (word : Nat → Nat) (children : List Child) : Bytes :=
  (children.mapIdx fun i c =>
    if c.fixed then c.bytes else LittleEndian.encode offsetSize (word i)).flatten

/-- The layout of some children. -/
def reference (children : List Child) : Bytes :=
  table (word children) children ++ (children.map (·.tail)).flatten

/-- A number is written as the offset of a child. -/
def IsWord (children : List Child) (offset : Nat) : Prop :=
  ∃ i c, children[i]? = some c ∧ c.fixed = false ∧ word children i = offset

/-- A child whose expected size is forgotten. -/
def Part.measured (p : Part) : Child := ⟨p.1.isSome, p.2⟩

@[simp] theorem tailBefore_zero (children : List Child) : tailBefore children 0 = 0 := by
  simp [tailBefore]

@[simp] theorem tailBefore_cons_succ (c : Child) (children : List Child) (i : Nat) :
    tailBefore (c :: children) (i + 1) = c.tail.length + tailBefore children i := by
  simp [tailBefore]

theorem table_cons (word : Nat → Nat) (c : Child) (children : List Child) :
    table word (c :: children) =
      (if c.fixed then c.bytes else LittleEndian.encode offsetSize (word 0)) ++
        table (fun i => word (i + 1)) children := by
  rw [table, List.mapIdx_cons, List.flatten_cons]
  rfl

/-- Whatever its offsets are, the fixed part is as long as what stands in it. -/
theorem length_table (word : Nat → Nat) (children : List Child) :
    (table word children).length = (children.map (·.slotLength)).sum := by
  induction children generalizing word with
  | nil => rfl
  | cons c children ih =>
    rw [table_cons, List.length_append, ih, List.map_cons, List.sum_cons, Child.slotLength]
    split
    · rfl
    · rw [LittleEndian.length_encode]

variable {shape : String} {parts : List Part} {position : Nat}

/-- The fixed part of a layout is a table of its offsets. -/
theorem header_eq_table (position : Nat) (parts : List Part) :
    header position parts =
      table (fun i => position + tailBefore (parts.map Part.measured) i) (parts.map Part.measured) := by
  induction parts generalizing position with
  | nil => rfl
  | cons p parts ih =>
    obtain ⟨_ | width, bytes⟩ := p
    · -- The child moves all offsets after its own.
      rw [header, ih, List.map_cons, table_cons]
      simp only [tailBefore_zero, tailBefore_cons_succ, Nat.add_zero, Part.measured, Child.tail,
        Option.isSome_none, Bool.false_eq_true, if_false, Nat.add_assoc]
    · rw [header, ih, List.map_cons, table_cons]
      simp only [tailBefore_cons_succ, Part.measured, Child.tail, Option.isSome_some, if_true,
        List.length_nil, Nat.zero_add]

theorem bodies_eq_tails (parts : List Part) :
    bodies parts = ((parts.map Part.measured).map (·.tail)).flatten := by
  induction parts with
  | nil => rfl
  | cons p parts ih =>
    obtain ⟨_ | width, bytes⟩ := p <;> rw [bodies, ih] <;> rfl

/-- Children of the expected sizes make up a fixed part of the expected length. -/
theorem headerLength_eq (fits : ∀ p ∈ parts, p.Fits) :
    headerLength parts = ((parts.map Part.measured).map (·.slotLength)).sum := by
  rw [← @length_header 0 parts fits, header_eq_table, length_table]

/-- The layout of children of the expected sizes is the reference layout. -/
theorem header_append_bodies (fits : ∀ p ∈ parts, p.Fits) :
    header (headerLength parts) parts ++ bodies parts = reference (parts.map Part.measured) := by
  rw [header_eq_table, bodies_eq_tails, headerLength_eq fits]
  rfl

/-- Offsets that can all be written down are so one by one. -/
theorem addressable_iff : Addressable position parts ↔
    ∀ i c, (parts.map Part.measured)[i]? = some c → c.fixed = false →
      position + tailBefore (parts.map Part.measured) i ≤ maxOffset := by
  induction parts generalizing position with
  | nil => simp [Addressable]
  | cons p parts ih =>
    rw [← Nat.and_forall_add_one]
    obtain ⟨_ | width, bytes⟩ := p
    · simp [Addressable, ih, Part.measured, Child.tail, Nat.add_assoc]
    · simp [Addressable, ih, Part.measured, Child.tail]

/-- If an offset cannot be written down, one of those is what writing fails with. -/
theorem place_of_not_addressable (h : ¬Addressable position parts) :
    ∃ i c, (parts.map Part.measured)[i]? = some c ∧ c.fixed = false ∧
      let offset := position + tailBefore (parts.map Part.measured) i
      maxOffset < offset ∧ place shape position (parts.map Part.child) =
        .error (.maxSize shape (.tooLong maxOffset offset)) := by
  induction parts generalizing position with
  | nil => exact absurd trivial h
  | cons p parts ih =>
    obtain ⟨_ | width, bytes⟩ := p
    · by_cases low : position ≤ maxOffset
      · -- A later offset is at fault, which counts the bytes of this child.
        obtain ⟨i, c, here, apart, beyond, failed⟩ := ih fun rest => h ⟨low, rest⟩
        have count : position + tailBefore (((none, bytes) :: parts).map Part.measured) (i + 1) =
            position + bytes.length + tailBefore (parts.map Part.measured) i := by
          rw [List.map_cons, tailBefore_cons_succ, ← Nat.add_assoc]
          rfl
        refine ⟨i + 1, c, here, apart, count ▸ beyond, ?_⟩
        rw [count, List.map_cons, Part.child, place, if_pos low, ok_bind, failed]
        rfl
      · refine ⟨0, _, rfl, rfl, ?_, ?_⟩
        · rw [tailBefore_zero]
          omega
        · rw [List.map_cons, Part.child, place, if_neg low, tailBefore_zero]
          rfl
    · obtain ⟨i, c, here, apart, beyond, failed⟩ := ih h
      have count : tailBefore (((some width, bytes) :: parts).map Part.measured) (i + 1) =
          tailBefore (parts.map Part.measured) i := by
        rw [List.map_cons, tailBefore_cons_succ]
        exact Nat.zero_add _
      refine ⟨i + 1, c, here, apart, count ▸ beyond, ?_⟩
      rw [count, List.map_cons, Part.child, place, ok_bind, failed]
      rfl

/-- The layout of children of the expected sizes is the reference layout, if all of its offsets can be
written down. -/
theorem written_iff_reference {bytes : Bytes} (fits : ∀ p ∈ parts, p.Fits) :
    Written parts bytes ↔ bytes = reference (parts.map Part.measured) ∧
      ∀ offset, IsWord (parts.map Part.measured) offset → offset ≤ maxOffset := by
  have low : Addressable (headerLength parts) parts ↔
      ∀ offset, IsWord (parts.map Part.measured) offset → offset ≤ maxOffset := by
    rw [addressable_iff, headerLength_eq fits]
    constructor
    · rintro each _ ⟨i, c, here, apart, rfl⟩
      exact each i c here apart
    · exact fun each i c here apart => each _ ⟨i, c, here, apart, rfl⟩
  rw [← low, ← header_append_bodies fits]
  exact ⟨fun h => ⟨h.bytes_eq, h.addressable⟩, fun h => ⟨h.2, h.1⟩⟩

/-- Writing children that have encodings fails with an offset that cannot be written down. -/
theorem exists_of_compose_error {e : EncodeError} (fits : ∀ p ∈ parts, p.Fits)
    (h : compose shape (parts.map Part.child) = .error e) :
    ∃ offset, IsWord (parts.map Part.measured) offset ∧ maxOffset < offset ∧
      e = .maxSize shape (.tooLong maxOffset offset) := by
  by_cases addressable : Addressable (headerLength parts) parts
  · have written := (@compose_eq_ok shape _ _).mpr ⟨parts, rfl, addressable, rfl⟩
    cases h.symm.trans written
  · obtain ⟨i, c, here, apart, beyond, failed⟩ := @place_of_not_addressable shape _ _ addressable
    rw [compose, sizes_children, ← headerLength, failed] at h
    cases h
    rw [headerLength_eq fits] at beyond ⊢
    exact ⟨_, ⟨i, c, here, apart, rfl⟩, beyond, rfl⟩

end SimpleSerialize.Layout
