/-
The layout that is written is the layout that is read.

`Written parts bytes` says of a byte string that it is the layout of some children: the fixed part
`header`, in which every child of no fixed size has an offset, followed by the variable part
`bodies`.  It mentions neither how the layout is written nor how it is read.  Main statements:

* `compose_eq_ok`: exactly the layouts of the children's bytes are written;
* `windows_of_written`: the children of a layout are found in it;
* `written_of_windows`: a buffer in which children are found is the layout of these children, so
  that no byte of it is skipped, read twice or free to differ.
-/
import SimpleSerialize.Layout
import SimpleSerialize.Proofs.Success

namespace SimpleSerialize.Layout

/-- A child of a composite: its size, if that is fixed, and its bytes. -/
abbrev Part := Option Nat × Bytes

namespace Part

/-- The bytes of a child of fixed size are as many as its size. -/
def Fits (p : Part) : Prop := ∀ width ∈ p.1, p.2.length = width

/-- A child whose bytes are known. -/
def child (p : Part) : Option Nat × Except EncodeError Bytes := (p.1, .ok p.2)

theorem child_injective : Function.Injective child := by
  rintro ⟨size, bytes⟩ ⟨size', bytes'⟩ same
  cases same
  rfl

end Part

/-- The fixed part of a layout whose variable part goes on at `position`. -/
def header : (position : Nat) → List Part → Bytes
  | _, [] => []
  | position, (some _, bytes) :: rest => bytes ++ header position rest
  | position, (none, bytes) :: rest =>
    LittleEndian.encode offsetSize position ++ header (position + bytes.length) rest

/-- The variable part of a layout. -/
def bodies : List Part → Bytes
  | [] => []
  | (some _, _) :: rest => bodies rest
  | (none, bytes) :: rest => bytes ++ bodies rest

/-- Every offset of a layout whose variable part goes on at `position` can be written down. -/
def Addressable : (position : Nat) → List Part → Prop
  | _, [] => True
  | position, (some _, _) :: rest => Addressable position rest
  | position, (none, bytes) :: rest =>
    position ≤ maxOffset ∧ Addressable (position + bytes.length) rest

/-- The length of the fixed part of a layout. -/
def headerLength (parts : List Part) : Nat := fixedLength (parts.map (·.1))

/-- A byte string is the layout of some children. -/
structure Written (parts : List Part) (bytes : Bytes) : Prop where
  addressable : Addressable (headerLength parts) parts
  bytes_eq : bytes = header (headerLength parts) parts ++ bodies parts

@[simp] theorem fixedLength_nil : fixedLength [] = 0 := rfl

@[simp] theorem fixedLength_cons (size : Option Nat) (sizes : List (Option Nat)) :
    fixedLength (size :: sizes) = slotSize size + fixedLength sizes := rfl

theorem fixedLength_replicate (count : Nat) (size : Option Nat) :
    fixedLength (List.replicate count size) = count * slotSize size := by
  induction count with
  | zero => rw [List.replicate_zero, fixedLength_nil, Nat.zero_mul]
  | succ count ih => rw [List.replicate_succ, fixedLength_cons, ih, Nat.succ_mul, Nat.add_comm]

theorem length_header {position : Nat} {parts : List Part} (fits : ∀ p ∈ parts, p.Fits) :
    (header position parts).length = headerLength parts := by
  induction parts generalizing position with
  | nil => rfl
  | cons p rest ih =>
    obtain ⟨size, bytes⟩ := p
    have tail (q : Nat) := @ih q fun p hp => fits p (List.mem_cons_of_mem _ hp)
    rw [headerLength, List.map_cons, fixedLength_cons]
    cases size with
    | none =>
      rw [header, List.length_append, LittleEndian.length_encode, tail]
      rfl
    | some width =>
      have head : bytes.length = width := fits _ List.mem_cons_self width rfl
      rw [header, List.length_append, head, tail]
      rfl

/-- Without offsets there is no variable part. -/
theorem bodies_eq_nil {parts : List Part} (h : (parts.map (·.1)).all Option.isSome) :
    bodies parts = [] := by
  induction parts with
  | nil => rfl
  | cons p rest ih =>
    obtain ⟨_ | width, bytes⟩ := p
    · simp at h
    · exact ih (by simpa using h)

/-! ### Writing -/

theorem place_eq_ok {shape : String} {position : Nat}
    {children : List (Option Nat × Except EncodeError Bytes)} {fixed tail : Bytes} :
    place shape position children = .ok (fixed, tail) ↔
      ∃ parts : List Part, children = parts.map Part.child ∧ Addressable position parts ∧
        fixed = header position parts ∧ tail = bodies parts := by
  induction children generalizing position fixed tail with
  | nil =>
    constructor
    · intro h
      cases h
      exact ⟨[], rfl, trivial, rfl, rfl⟩
    · rintro ⟨parts, hp, -, rfl, rfl⟩
      obtain rfl : parts = [] := List.map_eq_nil_iff.mp hp.symm
      rfl
  | cons child children ih =>
    obtain ⟨_ | width, body⟩ := child
    · constructor
      · intro h
        rw [place] at h
        split at h
        · rename_i low
          simp only [bind_eq_ok, pure_eq_ok, Prod.exists, Prod.mk.injEq] at h
          obtain ⟨bytes, rfl, f, t, hrest, rfl, rfl⟩ := h
          obtain ⟨parts, rfl, ha, rfl, rfl⟩ := ih.mp hrest
          exact ⟨(none, bytes) :: parts, rfl, ⟨low, ha⟩, rfl, rfl⟩
        · cases h
      · rintro ⟨parts, hp, ha, rfl, rfl⟩
        obtain ⟨⟨size, bytes⟩, parts, rfl, hc, rfl⟩ := List.map_eq_cons_iff.mp hp.symm
        cases hc
        rw [place, if_pos ha.1]
        simp only [bind_eq_ok, pure_eq_ok, Prod.exists, Prod.mk.injEq]
        exact ⟨bytes, rfl, _, _, ih.mpr ⟨parts, rfl, ha.2, rfl, rfl⟩, rfl, rfl⟩
    · constructor
      · intro h
        simp only [place, bind_eq_ok, pure_eq_ok, Prod.exists, Prod.mk.injEq] at h
        obtain ⟨bytes, rfl, f, t, hrest, rfl, rfl⟩ := h
        obtain ⟨parts, rfl, ha, rfl, rfl⟩ := ih.mp hrest
        exact ⟨(some width, bytes) :: parts, rfl, ha, rfl, rfl⟩
      · rintro ⟨parts, hp, ha, rfl, rfl⟩
        obtain ⟨⟨size, bytes⟩, parts, rfl, hc, rfl⟩ := List.map_eq_cons_iff.mp hp.symm
        cases hc
        simp only [place, bind_eq_ok, pure_eq_ok, Prod.exists, Prod.mk.injEq]
        exact ⟨bytes, rfl, _, _, ih.mpr ⟨parts, rfl, ha, rfl, rfl⟩, rfl, rfl⟩

theorem sizes_children (parts : List Part) :
    (parts.map Part.child).map (·.1) = parts.map (·.1) := by
  rw [List.map_map]
  rfl

/-- Exactly the layouts of the children's bytes are written. -/
theorem compose_eq_ok {shape : String} {children : List (Option Nat × Except EncodeError Bytes)}
    {bytes : Bytes} :
    compose shape children = .ok bytes ↔
      ∃ parts : List Part, children = parts.map Part.child ∧ Written parts bytes := by
  simp only [compose, bind_eq_ok, pure_eq_ok, Prod.exists]
  constructor
  · rintro ⟨fixed, tail, h, rfl⟩
    obtain ⟨parts, rfl, ha, rfl, rfl⟩ := place_eq_ok.mp h
    rw [sizes_children] at ha ⊢
    exact ⟨parts, rfl, ha, rfl⟩
  · rintro ⟨parts, rfl, ha, rfl⟩
    refine ⟨_, _, place_eq_ok.mpr ⟨parts, rfl, ?_, rfl, rfl⟩, ?_⟩
    · rw [sizes_children]
      exact ha
    · rw [sizes_children]
      rfl

/-! ### Reading what was written -/

/-- What the fixed part of a layout says, when its variable part goes on at `position`. -/
def slotsOf : (position : Nat) → List Part → List Slot
  | _, [] => []
  | position, (some _, bytes) :: rest => .inline bytes :: slotsOf position rest
  | position, (none, bytes) :: rest => .offset position :: slotsOf (position + bytes.length) rest

/-- An offset may stand after `previous`, or first if there is none before it. -/
def Follows (fixedLength total : Nat) (previous : Option Nat) (offset : Nat) : Prop :=
  match previous with
  | none => offset = fixedLength
  | some previous => previous ≤ offset ∧ offset ≤ total

theorem checkOffset_eq_ok {shape : String} {fixedLength total index : Nat} {previous : Option Nat}
    {offset : Nat} :
    checkOffset shape fixedLength total index previous offset = .ok () ↔
      Follows fixedLength total previous offset := by
  cases previous with
  | none =>
    simp only [checkOffset, Follows]
    split <;> simp_all
  | some previous =>
    simp only [checkOffset, Follows]
    split
    · simp
      omega
    · split
      · simp
        omega
      · simp
        omega

/-- Offsets are the numbers that the width of an offset has numerals for. -/
theorem lt_capacity_offsetSize {position : Nat} :
    position < LittleEndian.capacity offsetSize ↔ position ≤ maxOffset :=
  Nat.lt_succ_iff

theorem readOffset_encode {position : Nat} (low : position ≤ maxOffset) (rest : Bytes) :
    readOffset (LittleEndian.encode offsetSize position ++ rest) = position := by
  have len : (LittleEndian.encode offsetSize position).length = offsetSize :=
    LittleEndian.length_encode _ _
  rw [readOffset, List.take_left' len, LittleEndian.decode_encode (lt_capacity_offsetSize.mpr low)]

/-- The fixed part of a layout is read as what it says. -/
theorem slots_header {shape : String} {start total index position : Nat} {previous : Option Nat}
    {parts : List Part} (rest : Bytes) (fits : ∀ p ∈ parts, p.Fits)
    (addressable : Addressable position parts) (ends : position + (bodies parts).length = total)
    (follows : Follows start total previous position) :
    slots shape start total index previous (parts.map (·.1)) (header position parts ++ rest) =
      .ok (slotsOf position parts) := by
  induction parts generalizing index position previous with
  | nil => rfl
  | cons p parts ih =>
    obtain ⟨_ | width, bytes⟩ := p
    · rw [bodies, List.length_append] at ends
      -- The bytes of the child lie between its offset and the next one.
      have next : Follows start total (some position) (position + bytes.length) :=
        ⟨Nat.le_add_right _ _, by omega⟩
      have tail := @ih (index + 1) _ _ (fun p hp => fits p (List.mem_cons_of_mem _ hp))
        addressable.2 (by omega) next
      have len : (LittleEndian.encode offsetSize position).length = offsetSize :=
        LittleEndian.length_encode _ _
      rw [header, List.append_assoc, List.map_cons, slots, readOffset_encode addressable.1]
      rw [checkOffset_eq_ok.mpr follows, List.drop_left' len]
      change (slots shape start total (index + 1) (some position) (parts.map (·.1))
        (header (position + bytes.length) parts ++ rest) >>= fun found =>
          pure (.offset position :: found)) = _
      rw [tail]
      rfl
    · have len : bytes.length = width := fits _ List.mem_cons_self width rfl
      have tail := @ih (index + 1) _ _ (fun p hp => fits p (List.mem_cons_of_mem _ hp))
        addressable ends follows
      rw [header, List.append_assoc, List.map_cons, slots, List.drop_left' len,
        List.take_left' len, tail]
      rfl

/-- The variable part starts where its next child does, and at its end if there is no next child. -/
theorem nextOffset_slotsOf {total position : Nat} {parts : List Part}
    (ends : position + (bodies parts).length = total) :
    nextOffset total (slotsOf position parts) = position := by
  induction parts with
  | nil => exact ends.symm
  | cons p parts ih =>
    obtain ⟨_ | width, bytes⟩ := p
    · rfl
    · exact ih ends

theorem cut_slotsOf {total position : Nat} {parts : List Part}
    (ends : position + (bodies parts).length = total) :
    cut total (bodies parts) (slotsOf position parts) = parts.map (·.2) := by
  induction parts generalizing position with
  | nil => rfl
  | cons p parts ih =>
    obtain ⟨_ | width, bytes⟩ := p
    · rw [bodies, List.length_append] at ends
      have rest : position + bytes.length + (bodies parts).length = total := by omega
      rw [slotsOf, cut, nextOffset_slotsOf rest, Nat.add_sub_cancel_left, bodies, List.take_left,
        List.drop_left, ih rest]
      rfl
    · rw [slotsOf, cut, bodies, ih ends]
      rfl

/-- The children of a layout are found in it. -/
theorem windows_of_written {shape : String} {parts : List Part} {bytes : Bytes}
    (fits : ∀ p ∈ parts, p.Fits) (h : Written parts bytes) :
    windows shape (parts.map (·.1)) bytes = .ok (parts.map (·.2)) := by
  have len : (header (headerLength parts) parts).length = headerLength parts := length_header fits
  have ends : headerLength parts + (bodies parts).length = bytes.length := by
    rw [h.bytes_eq, List.length_append, len]
  have read := @slots_header shape (headerLength parts) bytes.length 0 _ none parts (bodies parts)
    fits h.addressable ends rfl
  rw [← h.bytes_eq] at read
  have drop : bytes.drop (headerLength parts) = bodies parts := by
    rw [h.bytes_eq, List.drop_left' len]
  -- Bytes after the fixed part belong to a child of no fixed size.
  have notTrailing :
      ¬((parts.map (·.1)).all Option.isSome = true ∧ headerLength parts < bytes.length) := by
    rintro ⟨all, more⟩
    rw [bodies_eq_nil all, List.length_nil] at ends
    omega
  rw [windows, ← headerLength, if_neg (by omega), read]
  simp only [bind, Except.bind]
  rw [if_neg notTrailing, drop, cut_slotsOf ends]
  rfl

/-! ### Writing what was read -/

theorem readOffset_le (bytes : Bytes) : readOffset bytes ≤ maxOffset := by
  have below := LittleEndian.decode_lt (bytes.take offsetSize)
  have width : LittleEndian.capacity (bytes.take offsetSize).length ≤
      LittleEndian.capacity offsetSize := by
    apply LittleEndian.capacity_mono
    rw [List.length_take]
    exact Nat.min_le_left _ _
  exact lt_capacity_offsetSize.mp (Nat.lt_of_lt_of_le below width)

theorem encode_readOffset {bytes : Bytes} (h : offsetSize ≤ bytes.length) :
    LittleEndian.encode offsetSize (readOffset bytes) = bytes.take offsetSize := by
  have len : (bytes.take offsetSize).length = offsetSize := by
    rw [List.length_take]
    omega
  have same := LittleEndian.encode_decode (bytes.take offsetSize)
  rw [len] at same
  exact same

/-- A child of fixed size is found in its slot, -/
theorem slots_inline_eq_ok {shape : String} {start total index width : Nat} {previous : Option Nat}
    {sizes : List (Option Nat)} {bytes : Bytes} {found : List Slot} :
    slots shape start total index previous (some width :: sizes) bytes = .ok found ↔
      ∃ rest, slots shape start total (index + 1) previous sizes (bytes.drop width) = .ok rest ∧
        .inline (bytes.take width) :: rest = found := by
  rw [slots, bind_eq_ok]
  simp only [pure_eq_ok]

/-- and any other by its offset, once that was checked. -/
theorem slots_offset_eq_ok {shape : String} {start total index : Nat} {previous : Option Nat}
    {sizes : List (Option Nat)} {bytes : Bytes} {found : List Slot} :
    slots shape start total index previous (none :: sizes) bytes = .ok found ↔
      checkOffset shape start total index previous (readOffset bytes) = .ok () ∧
        ∃ rest, slots shape start total (index + 1) (some (readOffset bytes)) sizes
          (bytes.drop offsetSize) = .ok rest ∧ .offset (readOffset bytes) :: rest = found := by
  rw [slots]
  simp only [bind_eq_ok, pure_eq_ok]
  exact ⟨fun ⟨_, check, rest⟩ => ⟨check, rest⟩, fun ⟨check, rest⟩ => ⟨(), check, rest⟩⟩

/-- Offsets that were accepted after another one lie between it and the end of the buffer. -/
theorem nextOffset_of_slots {shape : String} {start total index previous : Nat}
    {sizes : List (Option Nat)} {bytes : Bytes} {found : List Slot}
    (h : slots shape start total index (some previous) sizes bytes = .ok found)
    (within : previous ≤ total) :
    previous ≤ nextOffset total found ∧ nextOffset total found ≤ total := by
  induction sizes generalizing index bytes found with
  | nil =>
    cases h
    exact ⟨within, Nat.le_refl _⟩
  | cons size sizes ih =>
    cases size with
    | none =>
      obtain ⟨check, rest, _, rfl⟩ := slots_offset_eq_ok.mp h
      exact checkOffset_eq_ok.mp check
    | some width =>
      obtain ⟨rest, hrest, rfl⟩ := slots_inline_eq_ok.mp h
      rw [nextOffset]
      exact ih hrest

/-- The first offset that was accepted points at the end of the fixed part. -/
theorem nextOffset_of_first {shape : String} {start total index : Nat}
    {sizes : List (Option Nat)} {bytes : Bytes} {found : List Slot}
    (h : slots shape start total index none sizes bytes = .ok found) :
    nextOffset total found = start ∨ (sizes.all Option.isSome ∧ nextOffset total found = total) := by
  -- Children of fixed size are passed over; the first offset that is met was checked.
  induction sizes generalizing index bytes found with
  | nil =>
    cases h
    exact .inr ⟨rfl, rfl⟩
  | cons size sizes ih =>
    cases size with
    | none =>
      obtain ⟨check, rest, _, rfl⟩ := slots_offset_eq_ok.mp h
      exact .inl (checkOffset_eq_ok.mp check)
    | some width =>
      obtain ⟨rest, hrest, rfl⟩ := slots_inline_eq_ok.mp h
      simpa [nextOffset] using ih hrest

/-- Some children account for a table that was read from a buffer of `total` bytes: they have these
sizes, their fixed part is `fixed`, and their variable part `tail` is cut along the table into their
bytes. -/
structure Accounts (total : Nat) (found : List Slot) (sizes : List (Option Nat)) (fixed tail : Bytes)
    (parts : List Part) : Prop where
  sizes_eq : parts.map (·.1) = sizes
  bytes_eq : parts.map (·.2) = cut total tail found
  fits : ∀ p ∈ parts, p.Fits
  addressable : Addressable (nextOffset total found) parts
  header_eq : header (nextOffset total found) parts = fixed
  bodies_eq : bodies parts = tail

namespace Accounts

variable {total : Nat} {found : List Slot} {sizes : List (Option Nat)} {fixed tail : Bytes}
  {parts : List Part}

theorem nil : Accounts total [] [] [] [] [] :=
  ⟨rfl, rfl, fun _ mem => (nomatch mem), trivial, rfl, rfl⟩

/-- A child of fixed size comes first, -/
theorem inline (piece : Bytes) (h : Accounts total found sizes fixed tail parts) :
    Accounts total (.inline piece :: found) (some piece.length :: sizes) (piece ++ fixed) tail
      ((some piece.length, piece) :: parts) where
  sizes_eq := by rw [List.map_cons, h.sizes_eq]
  bytes_eq := by rw [List.map_cons, h.bytes_eq, cut]
  fits := List.forall_mem_cons.mpr ⟨fun _ width => Option.some.inj width, h.fits⟩
  addressable := h.addressable
  header_eq := by rw [nextOffset, header, h.header_eq]
  bodies_eq := h.bodies_eq

/-- or a child whose bytes run from its offset to where the next child starts. -/
theorem offset (piece : Bytes) {start : Nat} (low : start ≤ maxOffset)
    (stops : start + piece.length = nextOffset total found)
    (h : Accounts total found sizes fixed tail parts) :
    Accounts total (.offset start :: found) (none :: sizes)
      (LittleEndian.encode offsetSize start ++ fixed) (piece ++ tail) ((none, piece) :: parts) where
  sizes_eq := by rw [List.map_cons, h.sizes_eq]
  bytes_eq := by
    have length : nextOffset total found - start = piece.length := by omega
    rw [List.map_cons, h.bytes_eq, cut, length, List.take_left, List.drop_left]
  fits := List.forall_mem_cons.mpr ⟨fun _ width => (nomatch width), h.fits⟩
  addressable := by
    refine ⟨low, ?_⟩
    rw [nextOffset, stops]
    exact h.addressable
  header_eq := by rw [nextOffset, header, stops, h.header_eq]
  bodies_eq := by rw [bodies, h.bodies_eq]

end Accounts

/-- The children that are cut out of a buffer account for the table that was read from its fixed
part.  The variable part left is `tail`, and it starts where the next child does. -/
theorem accounts_of_slots {shape : String} {start total index : Nat} {previous : Option Nat}
    {sizes : List (Option Nat)} {bytes tail : Bytes} {found : List Slot}
    (h : slots shape start total index previous sizes bytes = .ok found)
    (enough : fixedLength sizes ≤ bytes.length) (within : nextOffset total found ≤ total)
    (rest : tail.length = total - nextOffset total found) :
    ∃ parts, Accounts total found sizes (bytes.take (fixedLength sizes)) tail parts := by
  induction sizes generalizing index previous bytes tail found with
  | nil =>
    cases h
    rw [nextOffset, Nat.sub_self] at rest
    obtain rfl : tail = [] := List.eq_nil_of_length_eq_zero rest
    exact ⟨[], .nil⟩
  | cons size sizes ih =>
    rw [fixedLength_cons] at enough ⊢
    rw [List.take_add]
    cases size with
    | none =>
      obtain ⟨-, later, hlater, rfl⟩ := slots_offset_eq_ok.mp h
      rw [slotSize, Option.getD_none] at enough ⊢
      rw [nextOffset] at within rest
      -- The window of the child runs to where the next child starts.
      have bounds := nextOffset_of_slots hlater within
      have length : (tail.take (nextOffset total later - readOffset bytes)).length =
          nextOffset total later - readOffset bytes := by
        rw [List.length_take]
        omega
      have enough' : fixedLength sizes ≤ (bytes.drop offsetSize).length := by
        rw [List.length_drop]
        omega
      obtain ⟨parts, others⟩ := @ih _ _ _ (tail.drop (nextOffset total later - readOffset bytes)) _
        hlater enough' bounds.2 (by rw [List.length_drop]; omega)
      have child := others.offset (tail.take (nextOffset total later - readOffset bytes))
        (readOffset_le bytes) (by omega)
      rw [encode_readOffset (by omega), List.take_append_drop] at child
      exact ⟨_, child⟩
    | some width =>
      obtain ⟨later, hlater, rfl⟩ := slots_inline_eq_ok.mp h
      rw [slotSize, Option.getD_some] at enough ⊢
      have length : (bytes.take width).length = width := by
        rw [List.length_take]
        omega
      have enough' : fixedLength sizes ≤ (bytes.drop width).length := by
        rw [List.length_drop]
        omega
      obtain ⟨parts, others⟩ := ih hlater enough' within rest
      have child := others.inline (bytes.take width)
      rw [length] at child
      exact ⟨_, child⟩

/-- A buffer in which children are found is the layout of these children. -/
theorem written_of_windows {shape : String} {sizes : List (Option Nat)} {bytes : Bytes}
    {found : List Bytes} (h : windows shape sizes bytes = .ok found) :
    ∃ parts : List Part, parts.map (·.1) = sizes ∧ parts.map (·.2) = found ∧
      (∀ p ∈ parts, p.Fits) ∧ Written parts bytes := by
  simp only [windows] at h
  split at h
  · cases h
  · rename_i enough
    rw [Nat.not_lt] at enough
    rw [bind_eq_ok] at h
    obtain ⟨read, hread, h⟩ := h
    split at h
    · cases h
    · rename_i notTrailing
      rw [pure_eq_ok] at h
      subst h
      -- With no offset at all the fixed part has to be the whole buffer.
      have first : nextOffset bytes.length read = fixedLength sizes := by
        rcases nextOffset_of_first hread with first | ⟨all, none⟩
        · exact first
        · have : ¬fixedLength sizes < bytes.length := fun more => notTrailing ⟨all, more⟩
          omega
      obtain ⟨parts, all⟩ := accounts_of_slots hread enough (by omega)
        (show (bytes.drop (fixedLength sizes)).length = _ by rw [List.length_drop, first])
      have position : headerLength parts = nextOffset bytes.length read := by
        rw [headerLength, all.sizes_eq, first]
      refine ⟨parts, all.sizes_eq, all.bytes_eq, all.fits, ?_, ?_⟩
      · rw [position]
        exact all.addressable
      · rw [position, all.header_eq, all.bodies_eq, List.take_append_drop]

end SimpleSerialize.Layout
