/-
Values at the end of a buffer.

A value that is appended to a buffer leaves what the buffer holds alone and adds its own bytes, as they
are without the buffer.  For composites these bytes are the reference layout of the encodings of its
children.  Main statements:

* `Layout.append_eq`: appending children one by one, in two buffers, is composing them;
* `Format.write_eq`: appending a value is encoding it;
* `Format.encode_of_children`: a composite is composed of its children;
* `Format.write_children`: the layout of a composite, and when there is none;
* `Codec.encode_eq_write`: what a codec gives is what is appended to an empty buffer.
-/
import SimpleSerialize.Format.Write
import SimpleSerialize.Proofs.Layout.Reference
import SimpleSerialize.Proofs.RoundTrip
import SimpleSerialize.Proofs.Session

namespace SimpleSerialize

/-! ### Buffers -/

namespace Layout

variable {shape : String} {fixed : Nat}

/-- What a writer appends to a buffer does not depend on the buffer. -/
def Appends (write : Writer) (body : Except EncodeError Bytes) : Prop :=
  ∀ out, write out = body.map (out ++ ·)

/-- A child that appends itself, and the same child with its bytes. -/
def SameChild (p : Option Nat × Writer) (q : Option Nat × Except EncodeError Bytes) : Prop :=
  p.1 = q.1 ∧ Appends p.2 q.2

variable {children : List (Option Nat × Writer)}
  {bodies : List (Option Nat × Except EncodeError Bytes)}

/-- Children are appended to both parts as they are placed in them. -/
theorem stream_eq (same : List.Forall₂ SameChild children bodies) (out tail : Bytes) :
    stream shape fixed children out tail =
      (place shape (fixed + tail.length) bodies).map fun p => (out ++ p.1, tail ++ p.2) := by
  induction same generalizing out tail with
  | nil => simp [stream, place, Except.map]
  | @cons p q children bodies head _ ih =>
    obtain ⟨size, write⟩ := p
    obtain ⟨size', body⟩ := q
    obtain ⟨rfl, appends⟩ := head
    replace appends (out : Bytes) : write out = body.map (out ++ ·) := appends out
    cases size with
    | some width =>
      rw [stream, place, appends]
      cases body with
      | error e => rfl
      | ok bytes =>
        simp only [Except.map, ok_bind]
        rw [ih]
        cases place shape (fixed + tail.length) bodies with
        | error e => rfl
        | ok p => simp [Except.map, pure, Except.pure, bind, Except.bind]
    | none =>
      rw [stream, place]
      by_cases low : fixed + tail.length ≤ maxOffset
      · rw [if_pos low, if_pos low, appends]
        cases body with
        | error e => rfl
        | ok bytes =>
          simp only [Except.map, ok_bind]
          rw [ih, List.length_append, Nat.add_assoc]
          cases place shape (fixed + (tail.length + bytes.length)) bodies with
          | error e => rfl
          | ok p => simp [Except.map, pure, Except.pure, bind, Except.bind]
      · rw [if_neg low, if_neg low]
        rfl

theorem append_eq (same : List.Forall₂ SameChild children bodies) :
    Appends (append shape children) (compose shape bodies) := by
  intro out
  have sizes : children.map (·.1) = bodies.map (·.1) :=
    map_eq_map_iff.mpr (same.imp fun _ _ h => h.1)
  rw [append, compose, stream_eq same, sizes, bind_map, map_bind, List.length_nil, Nat.add_zero]
  simp only [List.nil_append, List.append_assoc]
  rfl

end Layout

namespace Format

open Layout

/-- To append a value to a buffer is to append its encoding. -/
theorem write_eq (f : Format) (v : Value) : Appends (f.write v) (f.encode v) := by
  induction f generalizing v with
  | basic head a =>
    intro out
    simp only [write, encode, bind_map]
    refine congrArg _ (funext fun w => ?_)
    cases a.encode w <;> rfl
  | list head a regime element ih =>
    intro out
    simp only [write, encode, bind_map]
    refine congrArg _ (funext fun w => congrArg _ (funext fun items => congrArg _ (funext fun _ =>
      append_eq ?_ out)))
    rw [List.forall₂_map_left_iff, List.forall₂_map_right_iff]
    exact List.forall₂_same.mpr fun item _ => ⟨rfl, ih item⟩
  | union head a nullable variants ih =>
    intro out
    simp only [write, encode, bind_map, writers_eq, encoders_eq, Variant.select_map]
    refine congrArg _ (funext fun w => congrArg _ (funext fun selector => ?_))
    cases chosen : Variant.select nullable variants selector with
    | none => rfl
    | some variant =>
      cases variant with
      | empty => rfl
      | body f =>
        simp only [Option.map_some, Variant.map, bind_map]
        refine congrArg _ (funext fun body => ?_)
        rw [ih f (Variant.mem_of_select chosen) body]
        cases f.encode body with
        | error e => rfl
        | ok bytes => exact congrArg Except.ok (List.append_assoc ..)
  | container head a fields size ih =>
    intro out
    simp only [write, encode, bind_map, writers_eq, encoders_eq, fieldChildren_eq]
    refine congrArg _ (funext fun w => congrArg _ (funext fun values => congrArg _ (funext fun _ =>
      append_eq ?_ out)))
    rw [List.forall₂_map_left_iff, List.forall₂_map_right_iff]
    exact List.forall₂_same.mpr fun p mem => ⟨rfl, ih p.1 (List.of_mem_zip mem).1 p.2⟩

theorem write_nil (f : Format) (v : Value) : f.write v [] = f.encode v := by
  rw [f.write_eq v]
  cases f.encode v <;> rfl

/-! ### Composites -/

/-- A vector, a list or a container. -/
def IsComposite : Format → Prop
  | list _ _ _ _ => True
  | container _ _ _ _ => True
  | _ => False

/-- The children of a value of a composite shape, each with its format: as many as the shape asks for. -/
inductive Children : Format → Value → List (Format × Value) → Prop
  | list {head : Heading} {a : Handler ListAccessor} {regime : Regime} {element : Format}
    {v w : Value} {items : List Value} : v.concrete = some w → a.items w = .ok items →
    regime.Admits items.length →
    Children (.list head a regime element) v (items.map fun item => (element, item))
  | container {head : Heading} {a : Handler ContainerAccessor} {fields : List Format}
    {size : Option Nat} {v w : Value} {values : List Value} : v.concrete = some w →
    a.fields w = .ok values → fields.length = values.length →
    Children (.container head a fields size) v (fields.zip values)

/-- Children encode on their own, to these bytes. -/
def Encoded (children : List (Format × Value)) (bodies : List Bytes) : Prop :=
  List.Forall₂ (fun p body => p.1.encode p.2 = .ok body) children bodies

/-- Encoded children as a layout sees them. -/
def laidOut (children : List (Format × Value)) (bodies : List Bytes) : List Layout.Child :=
  (children.zip bodies).map fun p => ⟨p.1.1.isFixedSize, p.2⟩

variable {f : Format} {v : Value} {children : List (Format × Value)} {bodies : List Bytes}

/-- A composite is composed of its children. -/
theorem encode_of_children (has : f.Children v children) :
    f.encode v = compose f.name (children.map fun p => (p.1.fixedSize, p.1.encode p.2)) := by
  cases has with
  | @list _ _ _ _ _ w items shown hitems admits =>
    have checked (shape : String) : Regime.check shape items.length _ = .ok () :=
      Regime.check_eq_ok.mpr admits
    rw [encode, seen_eq_ok.mpr shown, ok_bind, hitems, ok_bind, checked, ok_bind, List.map_map]
    rfl
  | container shown hvalues arity =>
    have checked (shape : String) : checkArity shape _ _ = .ok () := checkArity_eq_ok.mpr arity
    rw [encode, seen_eq_ok.mpr shown, ok_bind, hvalues, ok_bind, checked, ok_bind, encoders_eq]
    exact congrArg (compose _) (fieldChildren_eq encode _)

/-- A composite that can be written has children. -/
theorem exists_children {bytes : Bytes} (composite : f.IsComposite) (h : f.encode v = .ok bytes) :
    ∃ children, f.Children v children := by
  cases f with
  | basic | union => cases composite
  | list head a regime element =>
    obtain ⟨w, items, _, shown, hitems, admits, -⟩ := encode_list_eq_ok.mp h
    exact ⟨_, .list shown hitems admits⟩
  | container head a fields size =>
    obtain ⟨w, values, _, shown, hvalues, each, -⟩ := encode_container_eq_ok.mp h
    exact ⟨_, .container shown hvalues each.length_left⟩

theorem Children.mem_parts (has : f.Children v children) : ∀ p ∈ children, p.1 ∈ f.parts := by
  intro p mem
  cases has with
  | list =>
    obtain ⟨item, -, rfl⟩ := List.mem_map.mp mem
    exact List.mem_cons_self
  | container => exact (List.of_mem_zip mem).1

/-- The children of a composite that encode on their own, with the sizes that are expected of them. -/
theorem parts_of_encoded (lawful : f.Lawful) (has : f.Children v children)
    (encoded : Encoded children bodies) :
    ∃ parts : List Part,
      (children.map fun p => (p.1.fixedSize, p.1.encode p.2)) = parts.map Part.child ∧
        parts.map Part.measured = laidOut children bodies ∧ ∀ p ∈ parts, p.Fits := by
  refine ⟨_, children_eq_iff.mpr ⟨bodies, rfl, encoded⟩, ?_, fun p mem => ?_⟩
  · rw [List.zip_map_left, List.map_map]
    rfl
  · rw [List.zip_map_left] at mem
    obtain ⟨⟨child, body⟩, pair, rfl⟩ := List.mem_map.mp mem
    have below : child.1.Lawful := lawful.inside _ (has.mem_parts _ (List.of_mem_zip pair).1)
    exact length_of_encode below ((List.forall₂_iff_zip.mp encoded).2 pair)

/-- A composite whose children encode on their own is written as their reference layout, if all
offsets of that can be written down, -/
theorem encode_eq_reference (lawful : f.Lawful) (has : f.Children v children)
    (encoded : Encoded children bodies) {bytes : Bytes} :
    f.encode v = .ok bytes ↔ bytes = reference (laidOut children bodies) ∧
      ∀ offset, IsWord (laidOut children bodies) offset → offset ≤ maxOffset := by
  obtain ⟨parts, known, same, fits⟩ := parts_of_encoded lawful has encoded
  rw [encode_of_children has, known, ← same, ← written_iff_reference fits, compose_eq_ok]
  constructor
  · rintro ⟨parts', eq, written⟩
    rwa [List.map_injective_iff.mpr Part.child_injective eq]
  · exact fun written => ⟨parts, rfl, written⟩

/-- and else fails with one that cannot be. -/
theorem exists_of_encode_error (lawful : f.Lawful) (has : f.Children v children)
    (encoded : Encoded children bodies) {e : EncodeError} (h : f.encode v = .error e) :
    ∃ offset, IsWord (laidOut children bodies) offset ∧ maxOffset < offset ∧
      e = .maxSize f.name (.tooLong maxOffset offset) := by
  obtain ⟨parts, known, same, fits⟩ := parts_of_encoded lawful has encoded
  rw [encode_of_children has, known] at h
  rw [← same]
  exact exists_of_compose_error fits h

/-- The bytes that a composite appends to a buffer are its encoding, which is the reference layout of
the encodings of its children.  If these encode on their own, appending fails exactly if an offset of
this layout is too large, and says so. -/
theorem write_children {catalog : Catalog} {bound : Nat} {d : Descriptor}
    (resolved : catalog.formatBelow bound d = .ok f) (composite : f.IsComposite) (v : Value)
    (out : Bytes) :
    f.write v out = (f.encode v).map (out ++ ·) ∧
    (∀ bytes, f.write v out = .ok bytes → ∃ children bodies, f.Children v children ∧
      Encoded children bodies ∧ bytes = out ++ reference (laidOut children bodies)) ∧
    ∀ children bodies, f.Children v children → Encoded children bodies →
      ((∃ e, f.write v out = .error e) ↔
        ∃ offset, IsWord (laidOut children bodies) offset ∧ 2 ^ 32 - 1 < offset) ∧
      ∀ e, f.write v out = .error e →
        ∃ offset, IsWord (laidOut children bodies) offset ∧ 2 ^ 32 - 1 < offset ∧
          e = .maxSize f.name (.tooLong (2 ^ 32 - 1) offset) := by
  have lawful := Catalog.lawful_of_formatBelow resolved
  refine ⟨f.write_eq v out, ?_⟩
  rw [f.write_eq v]
  refine ⟨fun bytes written => ?_, fun children bodies has encoded => ⟨⟨?_, ?_⟩, fun e failed => ?_⟩⟩
  · obtain ⟨own, whole, rfl⟩ := map_eq_ok.mp written
    obtain ⟨children, has⟩ := exists_children composite whole
    obtain ⟨parts, known, -⟩ := compose_eq_ok.mp ((encode_of_children has).symm.trans whole)
    obtain ⟨bodies, -, encoded⟩ := children_eq_iff.mp known
    refine ⟨children, bodies, has, encoded, ?_⟩
    rw [((encode_eq_reference lawful has encoded).mp whole).1]
  · rintro ⟨e, failed⟩
    obtain ⟨offset, word, beyond, -⟩ :=
      exists_of_encode_error lawful has encoded (map_eq_error.mp failed)
    exact ⟨offset, word, beyond⟩
  · rintro ⟨offset, word, beyond⟩
    cases whole : f.encode v with
    | error e => exact ⟨e, rfl⟩
    | ok bytes =>
      have low := ((encode_eq_reference lawful has encoded).mp whole).2 offset word
      exact absurd low (Nat.not_le_of_lt beyond)
  · exact exists_of_encode_error lawful has encoded (map_eq_error.mp failed)

/-- A record at the end of a buffer of two bytes: the offset of its list counts from behind them. -/
theorem write_children_record :
    let f := recordFormat .ok
    let v : Value := .container [.uint 2, .list [.uint 1, .uint 3]]
    let children : List Layout.Child := [⟨true, [2, 0]⟩, ⟨false, [1, 0, 3, 0]⟩]
    f.IsComposite ∧ f.write v [9, 9] = .ok ([9, 9] ++ reference children) ∧
      reference children = [2, 0, 6, 0, 0, 0, 1, 0, 3, 0] ∧
      ∀ offset, IsWord children offset → offset ≤ 2 ^ 32 - 1 := by
  intro f v children
  obtain ⟨-, -, layout⟩ :=
    write_children (format_record .ok) (show f.IsComposite from trivial) v [9, 9]
  have written : f.write v [9, 9] = .ok [9, 9, 2, 0, 6, 0, 0, 0, 1, 0, 3, 0] := by decide +kernel
  have has : f.Children v (f.parts.zip [.uint 2, .list [.uint 1, .uint 3]]) := .container rfl rfl rfl
  have encoded : Encoded (f.parts.zip [.uint 2, .list [.uint 1, .uint 3]]) [[2, 0], [1, 0, 3, 0]] :=
    .cons (by decide +kernel) (.cons (by decide +kernel) .nil)
  obtain ⟨fails, -⟩ := layout _ _ has encoded
  have bytes : reference children = [2, 0, 6, 0, 0, 0, 1, 0, 3, 0] := by decide +kernel
  refine ⟨trivial, ?_, bytes, fun offset word => Nat.le_of_not_lt fun beyond => ?_⟩
  · rw [bytes]
    exact written
  · obtain ⟨e, failed⟩ := fails.mpr ⟨offset, word, beyond⟩
    cases written.symm.trans failed

end Format

/-- What a codec gives for a value is what the value appends to an empty buffer. -/
theorem Codec.encode_eq_write {catalog : Catalog} {hasher : Hasher} {c : Codec} {shape : ShapeId}
    {f : Format} (session : Session catalog hasher c)
    (resolved : catalog.format (catalog.schema.descriptor shape) = .ok f) (v : Value) :
    ((encode shape v).run c).1 = (f.write v []).mapError .encode := by
  rw [encode, run_withFormat session resolved, Format.write_nil]

end SimpleSerialize
