/-
The parts of a buffer that a reader asks for.

A reader that goes by positions asks for the slots and the offsets of a composite from left to right,
and afterwards for what lies between the offsets.  What the first pass checked is just what keeps the
second one inside the buffer.  Main statements:

* `scan_eq`, `forall₂_places`: both passes find what cutting up the buffer gives;
* `readChildren_eq`: so that the children of a composite are read from the same windows;
* `divided_of_survey`: slots, offsets and bodies make up the buffer, part after part, and each of these
  parts is an offset or the window of one child.
-/
import SimpleSerialize.Format.Read
import SimpleSerialize.Proofs.Layout.Written

namespace SimpleSerialize

/-! ### Spans -/

namespace Span

/-- Spans that make up a buffer of this length: none lies outside of it, each stops before those after
it start, and every byte is in one. -/
structure Partition (length : Nat) (spans : List Span) : Prop where
  within : ∀ s ∈ spans, s.Within length
  ordered : spans.Pairwise fun s t => s.stop ≤ t.start
  covers : ∀ i < length, ∃ s ∈ spans, s.start ≤ i ∧ i < s.stop

/-- No byte is in both spans. -/
def Apart (s t : Span) : Prop := s.stop ≤ t.start ∨ t.stop ≤ s.start

/-- The spans of a partition are apart, in whatever order they are listed. -/
theorem Partition.apart {length : Nat} {spans others : List Span} (whole : Partition length spans)
    (perm : others.Perm spans) : others.Pairwise Apart :=
  (perm.pairwise_iff Or.symm).mpr (whole.ordered.imp Or.inl)

/-- Spans from one position to another, each of which starts where the one before it stops. -/
inductive Tiles : Nat → Nat → List Span → Prop
  | nil (stop : Nat) : Tiles stop stop []
  | cons {start mid stop : Nat} {rest : List Span} : start ≤ mid → Tiles mid stop rest →
    Tiles start stop (⟨start, mid⟩ :: rest)

namespace Tiles

variable {start mid stop : Nat} {spans rest : List Span}

theorem append (first : Tiles start mid spans) (second : Tiles mid stop rest) :
    Tiles start stop (spans ++ rest) := by
  induction first with
  | nil => exact second
  | cons le _ ih => exact .cons le (ih second)

theorem le (tiles : Tiles start stop spans) : start ≤ stop := by
  induction tiles with
  | nil => exact Nat.le_refl _
  | cons le _ ih => exact Nat.le_trans le ih

theorem between (tiles : Tiles start stop spans) :
    ∀ s ∈ spans, start ≤ s.start ∧ s.start ≤ s.stop ∧ s.stop ≤ stop := by
  induction tiles with
  | nil => exact fun _ mem => nomatch mem
  | cons le rest ih =>
    intro s mem
    rcases List.mem_cons.mp mem with rfl | mem
    · exact ⟨Nat.le_refl _, le, rest.le⟩
    · obtain ⟨after, inside⟩ := ih s mem
      exact ⟨Nat.le_trans le after, inside⟩

theorem ordered (tiles : Tiles start stop spans) :
    spans.Pairwise fun s t => s.stop ≤ t.start := by
  induction tiles with
  | nil => exact .nil
  | cons _ rest ih => exact .cons (fun t mem => (rest.between t mem).1) ih

theorem covers (tiles : Tiles start stop spans) {i : Nat} (from_start : start ≤ i) (before : i < stop) :
    ∃ s ∈ spans, s.start ≤ i ∧ i < s.stop := by
  induction tiles with
  | nil => exact absurd before (Nat.not_lt_of_le from_start)
  | @cons start mid _ _ _ _ ih =>
    by_cases early : i < mid
    · exact ⟨⟨start, mid⟩, List.mem_cons_self, from_start, early⟩
    · obtain ⟨s, mem, inside⟩ := ih (Nat.le_of_not_lt early) before
      exact ⟨s, List.mem_cons_of_mem _ mem, inside⟩

theorem partition {length : Nat} (tiles : Tiles 0 length spans) : Partition length spans where
  within s mem := (tiles.between s mem).2
  ordered := tiles.ordered
  covers _ inside := tiles.covers (Nat.zero_le _) inside

end Tiles

end Span

namespace Layout

variable {shape : String} {bytes : Bytes} {position : Nat} {sizes : List (Option Nat)}

/-! ### Asking for bytes -/

theorem slice_eq {s : Span} (within : s.Within bytes.length) :
    slice bytes s = .ok ((bytes.drop s.start).take (s.stop - s.start)) :=
  if_pos within

theorem slice_rest (within : position ≤ bytes.length) :
    slice bytes ⟨position, bytes.length⟩ = .ok (bytes.drop position) := by
  rw [slice_eq ⟨within, Nat.le_refl _⟩, ← List.length_drop, List.take_length]

theorem offsetAt_eq (room : position + offsetSize ≤ bytes.length) :
    offsetAt bytes position = .ok (readOffset (bytes.drop position)) := by
  rw [offsetAt, slice_eq ⟨Nat.le_add_right _ _, room⟩, Nat.add_sub_cancel_left]
  rfl

/-! ### The first pass -/

/-- What the first pass notes for a table, where `index` offsets were read before. -/
def places : (index : Nat) → List Slot → List Place
  | _, [] => []
  | index, .inline bytes :: rest => .inline bytes :: places index rest
  | index, .offset _ :: rest => .offset index :: places (index + 1) rest

/-- The offsets of a table. -/
def offsetsOf : List Slot → List Nat
  | [] => []
  | .inline _ :: rest => offsetsOf rest
  | .offset position :: rest => position :: offsetsOf rest

/-- Going by positions through a fixed part that is there finds what its table says. -/
theorem scan_eq {fixed index : Nat} {offsets : List Nat}
    (room : position + fixedLength sizes ≤ bytes.length) :
    scan shape fixed bytes index position offsets sizes =
      ((slots shape fixed bytes.length index offsets.getLast? sizes (bytes.drop position)).map
        fun found => (places offsets.length found, offsets ++ offsetsOf found)).mapError .refused := by
  induction sizes generalizing index position offsets with
  | nil =>
    rw [scan, slots]
    simp [Except.map, Except.mapError, places, offsetsOf]
  | cons size sizes ih =>
    rw [fixedLength_cons, ← Nat.add_assoc] at room
    have here : position + slotSize size ≤ bytes.length := Nat.le_trans (Nat.le_add_right _ _) room
    cases size with
    | some width =>
      rw [slotSize, Option.getD_some] at room here
      have own : slice bytes ⟨position, position + width⟩ =
          .ok ((bytes.drop position).take width) := by
        rw [slice_eq ⟨Nat.le_add_right _ _, here⟩, Nat.add_sub_cancel_left]
      rw [scan, slots, own, ok_bind, ih room, List.drop_drop]
      cases slots shape fixed bytes.length (index + 1) offsets.getLast? sizes
        (bytes.drop (position + width)) <;> rfl
    | none =>
      rw [slotSize, Option.getD_none] at room here
      rw [scan, slots, offsetAt_eq here, ok_bind]
      cases checkOffset shape fixed bytes.length index offsets.getLast?
        (readOffset (bytes.drop position)) with
      | error e => rfl
      | ok done =>
        have last : (offsets ++ [readOffset (bytes.drop position)]).getLast? =
            some (readOffset (bytes.drop position)) := List.getLast?_concat
        simp only [Except.mapError, ok_bind]
        rw [ih room, last, List.drop_drop]
        cases slots shape fixed bytes.length (index + 1) (some (readOffset (bytes.drop position)))
          sizes (bytes.drop (position + offsetSize)) with
        | error e => rfl
        | ok found =>
          simp only [Except.map, Except.mapError, ok_bind, List.length_append, List.length_singleton,
            List.append_assoc, List.singleton_append]
          rfl

/-- There is an offset for each child that is not fixed in size. -/
theorem isEmpty_offsetsOf {start total index : Nat} {previous : Option Nat} {found : List Slot}
    (h : slots shape start total index previous sizes bytes = .ok found) :
    (offsetsOf found).isEmpty = sizes.all Option.isSome := by
  induction sizes generalizing index previous bytes found with
  | nil =>
    cases h
    rfl
  | cons size sizes ih =>
    cases size with
    | none =>
      obtain ⟨-, rest, -, rfl⟩ := slots_offset_eq_ok.mp h
      rfl
    | some width =>
      obtain ⟨rest, hrest, rfl⟩ := slots_inline_eq_ok.mp h
      rw [offsetsOf, List.all_cons, Option.isSome_some, Bool.true_and]
      exact ih hrest

/-! ### The second pass -/

theorem head?_offsetsOf (total : Nat) (found : List Slot) :
    (offsetsOf found).head?.getD total = nextOffset total found := by
  induction found with
  | nil => rfl
  | cons slot rest ih =>
    cases slot with
    | inline window => exact ih
    | offset start => rfl

/-- Offsets stand in ascending order up to the end of the buffer. -/
def Ascending (total : Nat) : List Slot → Prop
  | [] => True
  | .inline _ :: rest => Ascending total rest
  | .offset start :: rest =>
    start ≤ nextOffset total rest ∧ nextOffset total rest ≤ total ∧ Ascending total rest

theorem ascending_of_slots {start total index : Nat} {previous : Option Nat} {found : List Slot}
    (h : slots shape start total index previous sizes bytes = .ok found)
    (within : nextOffset total found ≤ total) : Ascending total found := by
  induction sizes generalizing index previous bytes found with
  | nil =>
    cases h
    trivial
  | cons size sizes ih =>
    cases size with
    | none =>
      obtain ⟨-, rest, hrest, rfl⟩ := slots_offset_eq_ok.mp h
      obtain ⟨above, below⟩ := nextOffset_of_slots hrest within
      exact ⟨above, below, ih hrest below⟩
    | some width =>
      obtain ⟨rest, hrest, rfl⟩ := slots_inline_eq_ok.mp h
      rw [Ascending]
      exact ih hrest within

/-- The windows that the second pass takes are those that the buffer is cut into. -/
theorem forall₂_places {before : List Nat} {found : List Slot}
    (ascending : Ascending bytes.length found) :
    List.Forall₂ (fun place window => windowAt bytes (before ++ offsetsOf found) place = .ok window)
      (places before.length found)
      (cut bytes.length (bytes.drop (nextOffset bytes.length found)) found) := by
  induction found generalizing before with
  | nil => exact .nil
  | cons slot rest ih =>
    cases slot with
    | inline window => exact .cons rfl (ih ascending)
    | offset start =>
      obtain ⟨above, below, ascending⟩ := ascending
      rw [places, cut, nextOffset, List.drop_drop, Nat.add_sub_cancel' above]
      refine .cons ?_ ?_
      · have own : (before ++ start :: offsetsOf rest)[before.length]? = some start := by
          rw [List.getElem?_append_right (Nat.le_refl _), Nat.sub_self]
          rfl
        have next : (before ++ start :: offsetsOf rest)[before.length + 1]? =
            (offsetsOf rest).head? := by
          rw [List.getElem?_append_right (Nat.le_add_right _ _), Nat.add_sub_cancel_left,
            List.getElem?_cons_succ, List.head?_eq_getElem?]
        simp only [windowAt, offsetsOf, own, next, head?_offsetsOf]
        exact slice_eq ⟨above, below⟩
      · have same : before ++ start :: offsetsOf rest = (before ++ [start]) ++ offsetsOf rest := by
          rw [List.append_assoc, List.singleton_append]
        have length : before.length + 1 = (before ++ [start]).length := by
          rw [List.length_append, List.length_singleton]
        rw [offsetsOf, same, length]
        exact ih ascending

/-- A table was read from a fixed part that is there, and the variable part starts right behind it. -/
structure Surveyed (shape : String) (sizes : List (Option Nat)) (bytes : Bytes) (found : List Slot) :
    Prop where
  enough : fixedLength sizes ≤ bytes.length
  table : slots shape (fixedLength sizes) bytes.length 0 none sizes bytes = .ok found
  next : nextOffset bytes.length found = fixedLength sizes

theorem Surveyed.room {found : List Slot} (h : Surveyed shape sizes bytes found) :
    0 + fixedLength sizes ≤ bytes.length := by
  rw [Nat.zero_add]
  exact h.enough

theorem Surveyed.ascending {found : List Slot} (h : Surveyed shape sizes bytes found) :
    Ascending bytes.length found := by
  refine ascending_of_slots h.table ?_
  rw [h.next]
  exact h.enough

/-- The first pass refuses what cannot be cut up, and else finds the table to do it. -/
theorem survey_cases (shape : String) (sizes : List (Option Nat)) (bytes : Bytes) :
    (∃ e, survey shape sizes bytes = .error (.refused e) ∧ windows shape sizes bytes = .error e) ∨
      ∃ found, Surveyed shape sizes bytes found ∧
        survey shape sizes bytes = .ok (places 0 found, offsetsOf found) ∧
        windows shape sizes bytes =
          .ok (cut bytes.length (bytes.drop (nextOffset bytes.length found)) found) := by
  rw [survey, windows]
  by_cases short : bytes.length < fixedLength sizes
  · rw [if_pos short, if_pos short]
    exact .inl ⟨_, rfl, rfl⟩
  rw [if_neg short, if_neg short]
  have enough : fixedLength sizes ≤ bytes.length := Nat.le_of_not_lt short
  rw [scan_eq (by rwa [Nat.zero_add]), List.getLast?_nil, List.drop_zero]
  cases table : slots shape (fixedLength sizes) bytes.length 0 none sizes bytes with
  | error e => exact .inl ⟨e, rfl, rfl⟩
  | ok found =>
    simp only [Except.map, Except.mapError, ok_bind, List.nil_append, List.length_nil,
      isEmpty_offsetsOf table]
    by_cases trailing : sizes.all Option.isSome ∧ fixedLength sizes < bytes.length
    · rw [if_pos trailing, if_pos trailing]
      exact .inl ⟨_, rfl, rfl⟩
    · -- With no offset at all the fixed part has to be the whole buffer.
      have next : nextOffset bytes.length found = fixedLength sizes := by
        rcases nextOffset_of_first table with first | ⟨all, none⟩
        · exact first
        · have : ¬fixedLength sizes < bytes.length := fun more => trailing ⟨all, more⟩
          omega
      rw [if_neg trailing, if_neg trailing]
      refine .inr ⟨found, ⟨enough, table, next⟩, rfl, ?_⟩
      rw [next]
      rfl

theorem surveyed_of_survey {ps : List Place} {offsets : List Nat}
    (h : survey shape sizes bytes = .ok (ps, offsets)) :
    ∃ found, Surveyed shape sizes bytes found ∧ ps = places 0 found ∧ offsets = offsetsOf found := by
  rcases survey_cases shape sizes bytes with ⟨e, failed, -⟩ | ⟨found, surveyed, same, -⟩
  · cases h.symm.trans failed
  · cases h.symm.trans same
    exact ⟨found, surveyed, rfl, rfl⟩

/-- Going by positions, children are read from the windows that the buffer is cut into. -/
theorem readChildren_eq {α : Type} (readers : List (Bytes → Except ReadFault α)) :
    readChildren shape sizes readers bytes =
      (windows shape sizes bytes).mapError .refused >>= fun found =>
        (readers.zip found).mapM fun (read, window) => read window := by
  rw [readChildren]
  rcases survey_cases shape sizes bytes with ⟨e, failed, failed'⟩ | ⟨found, surveyed, same, same'⟩
  · rw [failed, failed']
    rfl
  rw [same, same']
  have each := @forall₂_places bytes [] found surveyed.ascending
  rw [List.length_nil, List.nil_append] at each
  simp only [Except.mapError, ok_bind]
  generalize places 0 found = ps at each
  generalize cut bytes.length (bytes.drop (nextOffset bytes.length found)) found = pieces at each
  induction each generalizing readers with
  | nil => rw [List.zip_nil_right, List.zip_nil_right]; rfl
  | cons head _ ih =>
    cases readers with
    | nil => rfl
    | cons read readers =>
      simp only [List.zip_cons_cons, List.mapM_cons, ih, head, ok_bind]

/-! ### What belongs to whom -/

/-- The slots of children and the offsets, from left to right. -/
def slotSpans : (position : Nat) → List (Option Nat) → List Span
  | _, [] => []
  | position, size :: sizes =>
    ⟨position, position + slotSize size⟩ :: slotSpans (position + slotSize size) sizes

/-- The offsets among them. -/
def wordSpans : (position : Nat) → List (Option Nat) → List Span
  | _, [] => []
  | position, some width :: sizes => wordSpans (position + width) sizes
  | position, none :: sizes =>
    ⟨position, position + offsetSize⟩ :: wordSpans (position + offsetSize) sizes

/-- What lies between the offsets. -/
def bodySpans (total : Nat) : List Nat → List Span
  | [] => []
  | start :: offsets => ⟨start, offsets.head?.getD total⟩ :: bodySpans total offsets

/-- The windows of all children: their slots, or else the bodies one by one. -/
def childSpans : (position : Nat) → List (Option Nat) → (bodies : List Span) → List Span
  | _, [], _ => []
  | position, some width :: sizes, bodies =>
    ⟨position, position + width⟩ :: childSpans (position + width) sizes bodies
  | position, none :: sizes, body :: bodies =>
    body :: childSpans (position + offsetSize) sizes bodies
  | _, none :: _, [] => []

theorem tiles_slotSpans (position : Nat) (sizes : List (Option Nat)) :
    Span.Tiles position (position + fixedLength sizes) (slotSpans position sizes) := by
  induction sizes generalizing position with
  | nil => exact .nil position
  | cons size sizes ih =>
    rw [fixedLength_cons, ← Nat.add_assoc]
    exact .cons (Nat.le_add_right _ _) (ih _)

theorem tiles_bodySpans {total : Nat} {found : List Slot} (ascending : Ascending total found) :
    Span.Tiles (nextOffset total found) total (bodySpans total (offsetsOf found)) := by
  induction found with
  | nil => exact .nil total
  | cons slot rest ih =>
    cases slot with
    | inline window => exact ih ascending
    | offset start =>
      obtain ⟨above, -, ascending⟩ := ascending
      rw [offsetsOf, bodySpans, head?_offsetsOf]
      exact .cons above (ih ascending)

/-- Slots, offsets and bodies make up the buffer, part after part. -/
theorem Surveyed.partition {found : List Slot} (h : Surveyed shape sizes bytes found) :
    Span.Partition bytes.length (slotSpans 0 sizes ++ bodySpans bytes.length (offsetsOf found)) := by
  have fixed := tiles_slotSpans 0 sizes
  have variable_part := tiles_bodySpans h.ascending
  rw [Nat.zero_add, ← h.next] at fixed
  exact (fixed.append variable_part).partition

/-- There is a body for each offset. -/
theorem length_bodySpans (total : Nat) (offsets : List Nat) :
    (bodySpans total offsets).length = offsets.length := by
  induction offsets with
  | nil => rfl
  | cons start offsets ih => rw [bodySpans, List.length_cons, ih, List.length_cons]

/-- What is read as the offsets stands where they belong. -/
theorem forall₂_wordSpans {fixed index : Nat} {previous : Option Nat} {found : List Slot}
    (room : position + fixedLength sizes ≤ bytes.length)
    (h : slots shape fixed bytes.length index previous sizes (bytes.drop position) = .ok found) :
    List.Forall₂ (fun word offset => (slice bytes word).map LittleEndian.decode = .ok offset)
      (wordSpans position sizes) (offsetsOf found) := by
  induction sizes generalizing index position previous found with
  | nil =>
    cases h
    exact .nil
  | cons size sizes ih =>
    rw [fixedLength_cons, ← Nat.add_assoc] at room
    have here : position + slotSize size ≤ bytes.length := Nat.le_trans (Nat.le_add_right _ _) room
    cases size with
    | some width =>
      obtain ⟨rest, hrest, rfl⟩ := slots_inline_eq_ok.mp h
      rw [List.drop_drop] at hrest
      rw [wordSpans, offsetsOf]
      exact ih room hrest
    | none =>
      obtain ⟨-, rest, hrest, rfl⟩ := slots_offset_eq_ok.mp h
      rw [List.drop_drop] at hrest
      exact .cons (offsetAt_eq here) (ih room hrest)

/-- What is not an offset is the window of a child. -/
theorem childSpans_perm {bodies : List Span}
    (each : bodies.length = (wordSpans position sizes).length) :
    (wordSpans position sizes ++ childSpans position sizes bodies).Perm
      (slotSpans position sizes ++ bodies) := by
  induction sizes generalizing position bodies with
  | nil =>
    obtain rfl : bodies = [] := List.eq_nil_of_length_eq_zero each
    exact .refl _
  | cons size sizes ih =>
    cases size with
    | some width => exact List.perm_middle.trans ((ih each).cons _)
    | none =>
      cases bodies with
      | nil => cases each
      | cons body bodies =>
        have rest := @ih (position + offsetSize) bodies (Nat.succ.inj each)
        exact (List.perm_middle.trans ((rest.cons body).trans List.perm_middle.symm)).cons _

theorem Surveyed.words {found : List Slot} (h : Surveyed shape sizes bytes found) :
    List.Forall₂ (fun word offset => (slice bytes word).map LittleEndian.decode = .ok offset)
      (wordSpans 0 sizes) (offsetsOf found) :=
  forall₂_wordSpans h.room h.table

theorem Surveyed.perm {found : List Slot} (h : Surveyed shape sizes bytes found) :
    (wordSpans 0 sizes ++ childSpans 0 sizes (bodySpans bytes.length (offsetsOf found))).Perm
      (slotSpans 0 sizes ++ bodySpans bytes.length (offsetsOf found)) := by
  refine childSpans_perm ?_
  rw [length_bodySpans]
  exact h.words.length_eq.symm

/-- The pieces that a buffer is cut into are the windows of the children. -/
theorem forall₂_childSpans {fixed index : Nat} {previous : Option Nat} {found : List Slot}
    (room : position + fixedLength sizes ≤ bytes.length)
    (h : slots shape fixed bytes.length index previous sizes (bytes.drop position) = .ok found)
    (ascending : Ascending bytes.length found) :
    List.Forall₂ (fun span window => slice bytes span = .ok window)
      (childSpans position sizes (bodySpans bytes.length (offsetsOf found)))
      (cut bytes.length (bytes.drop (nextOffset bytes.length found)) found) := by
  induction sizes generalizing index position previous found with
  | nil =>
    cases h
    exact .nil
  | cons size sizes ih =>
    rw [fixedLength_cons, ← Nat.add_assoc] at room
    have here : position + slotSize size ≤ bytes.length := Nat.le_trans (Nat.le_add_right _ _) room
    cases size with
    | some width =>
      obtain ⟨rest, hrest, rfl⟩ := slots_inline_eq_ok.mp h
      rw [List.drop_drop] at hrest
      rw [slotSize, Option.getD_some] at room here
      refine .cons ?_ (ih room hrest ascending)
      rw [slice_eq ⟨Nat.le_add_right _ _, here⟩, Nat.add_sub_cancel_left]
    | none =>
      obtain ⟨-, rest, hrest, rfl⟩ := slots_offset_eq_ok.mp h
      rw [List.drop_drop] at hrest
      obtain ⟨above, below, ascending⟩ := ascending
      rw [offsetsOf, bodySpans, head?_offsetsOf, childSpans, cut, nextOffset, List.drop_drop,
        Nat.add_sub_cancel' above]
      exact .cons (slice_eq ⟨above, below⟩) (ih room hrest ascending)

/-- What the second pass takes for a child is its window. -/
theorem Surveyed.windowAt_eq {found : List Slot} (h : Surveyed shape sizes bytes found) :
    List.Forall₂ (fun place span => windowAt bytes (offsetsOf found) place = slice bytes span)
      (places 0 found) (childSpans 0 sizes (bodySpans bytes.length (offsetsOf found))) := by
  have taken := @forall₂_places bytes [] found h.ascending
  rw [List.length_nil, List.nil_append] at taken
  refine forall₂_of_common taken (forall₂_childSpans h.room h.table h.ascending) ?_
  exact fun _ _ _ _ _ same same' => same.trans same'.symm

/-- How a buffer is divided among the children of a composite: slots and offsets and then the bodies
make it up, part after part, and each part is an offset that was read or what is taken for one child. -/
structure Divided (sizes : List (Option Nat)) (bytes : Bytes) (found : List Place)
    (offsets : List Nat) : Prop where
  whole : Span.Partition bytes.length (slotSpans 0 sizes ++ bodySpans bytes.length offsets)
  each : (wordSpans 0 sizes ++ childSpans 0 sizes (bodySpans bytes.length offsets)).Perm
    (slotSpans 0 sizes ++ bodySpans bytes.length offsets)
  apart : (wordSpans 0 sizes ++ childSpans 0 sizes (bodySpans bytes.length offsets)).Pairwise Span.Apart
  words : List.Forall₂ (fun word offset => (slice bytes word).map LittleEndian.decode = .ok offset)
    (wordSpans 0 sizes) offsets
  taken : List.Forall₂ (fun place span => windowAt bytes offsets place = slice bytes span) found
    (childSpans 0 sizes (bodySpans bytes.length offsets))

/-- A buffer that the first pass goes through is divided among the children. -/
theorem divided_of_survey {found : List Place} {offsets : List Nat}
    (h : survey shape sizes bytes = .ok (found, offsets)) : Divided sizes bytes found offsets := by
  obtain ⟨table, surveyed, rfl, rfl⟩ := surveyed_of_survey h
  exact ⟨surveyed.partition, surveyed.perm, surveyed.partition.apart surveyed.perm, surveyed.words,
    surveyed.windowAt_eq⟩

/-! ### Elements of one size -/

theorem chunks_eq {α : Type} (width count : Nat) (xs : List α) :
    chunks width count xs =
      (List.range count).map fun i => (xs.drop (i * width)).take width := by
  induction count generalizing xs with
  | zero => rfl
  | succ count ih =>
    rw [chunks, ih, List.range_succ_eq_map, List.map_cons, List.map_map, Nat.zero_mul, List.drop_zero]
    refine congrArg _ (List.map_congr_left fun i _ => ?_)
    rw [List.drop_drop, Function.comp_apply, Nat.succ_mul, Nat.add_comm]

/-- Elements are read from the pieces of one width that the buffer is cut into. -/
theorem mapM_elementSpans {α : Type} {width count : Nat} (full : bytes.length = width * count)
    (read : Bytes → Except ReadFault α) :
    ((elementSpans width count).mapM fun span => do read (← slice bytes span)) =
      (chunks width count bytes).mapM read := by
  rw [elementSpans, chunks_eq, List.mapM_map, List.mapM_map]
  refine mapM_congr fun i mem => ?_
  have below : (i + 1) * width ≤ bytes.length := by
    rw [full, Nat.mul_comm width]
    exact Nat.mul_le_mul_right _ (List.mem_range.mp mem)
  have above : i * width ≤ (i + 1) * width := Nat.mul_le_mul_right _ (Nat.le_succ i)
  have width_eq : (i + 1) * width - i * width = width := by
    rw [Nat.succ_mul, Nat.add_sub_cancel_left]
  have own : slice bytes ⟨i * width, (i + 1) * width⟩ = .ok ((bytes.drop (i * width)).take width) := by
    rw [slice_eq ⟨above, below⟩, width_eq]
  rw [Function.comp_apply, Function.comp_apply, own, ok_bind]

theorem tiles_elementSpans (width count : Nat) :
    Span.Tiles 0 (width * count) (elementSpans width count) := by
  induction count with
  | zero => exact .nil 0
  | succ count ih =>
    rw [elementSpans, List.range_succ, List.map_append, Nat.mul_comm]
    rw [Nat.mul_comm] at ih
    exact ih.append (.cons (Nat.mul_le_mul_right _ (Nat.le_succ count)) (.nil _))

/-! ### Elements of no fixed size -/

theorem countAt_eq (regime : Regime) :
    countAt shape regime bytes = (offsetCount shape regime bytes).mapError .refused := by
  have first (room : ¬bytes.length < offsetSize) : offsetAt bytes 0 = .ok (readOffset bytes) :=
    offsetAt_eq (by rw [Nat.zero_add]; exact Nat.le_of_not_lt room)
  have pushed {p : Prop} [Decidable p] (x y : Except DecodeError Nat) :
      (if p then x else y).mapError ReadFault.refused =
        if p then x.mapError .refused else y.mapError .refused :=
    apply_ite _ _ _ _
  rw [countAt.eq_def, offsetCount.eq_def]
  by_cases short : bytes.length < offsetSize
  · simp only [if_pos short]
    cases regime <;> cases bytes <;> rfl
  · simp only [if_neg short, first short, ok_bind]
    cases regime with
    | vector length =>
      simp only [pushed]
      rfl
    | list limit =>
      cases bytes with
      | nil => rfl
      | cons byte bytes =>
        simp only [pushed]
        rfl

end Layout

end SimpleSerialize
