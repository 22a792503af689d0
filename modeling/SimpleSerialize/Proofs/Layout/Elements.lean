/-
The elements of a sequence that are written are the elements that are read.

The number of elements is not written down.  A reader has to find it: from the length of the buffer
if the elements have a fixed size, and from the first offset if they have none.  Main statements:

* `elementWindows_of_written`: the elements of a sequence are found in its layout, as long as the
  elements of a list have bytes to be counted by;
* `written_of_elementWindows`: a buffer in which elements are found is their layout, and there are
  as many of them as the regime admits.
-/
import SimpleSerialize.Proofs.Layout.Written

namespace SimpleSerialize

namespace Regime

/-- The regime admits this number of elements. -/
def Admits (count : Nat) : Regime → Prop
  | vector length => count = length.toNat
  | list (some limit) => count ≤ limit.toNat
  | list none => True

theorem check_eq_ok {shape : String} {count : Nat} {regime : Regime} {done : Unit} :
    regime.check shape count = .ok done ↔ regime.Admits count := by
  rcases regime with length | (_ | limit)
  · simp [check, Admits]
  · simp [check, Admits]
  · simp [check, Admits]

theorem checkLimit_eq_ok {shape : String} {count : Nat} {regime : Regime} :
    regime.checkLimit shape count = .ok () ↔ (regime.isVector = true ∨ regime.Admits count) := by
  rcases regime with length | (_ | limit)
  · simp [checkLimit, isVector]
  · simp [checkLimit, Admits]
  · simp [checkLimit, Admits, isVector]

end Regime

namespace Layout

/-- The children of a sequence: elements of one size, or of none. -/
def elementParts (size : Option Nat) (elements : List Bytes) : List Part :=
  elements.map fun bytes => (size, bytes)

theorem elementParts_sizes (size : Option Nat) (elements : List Bytes) :
    (elementParts size elements).map (·.1) = List.replicate elements.length size := by
  induction elements with
  | nil => rfl
  | cons bytes elements ih =>
    rw [List.length_cons, List.replicate_succ, ← ih]
    rfl

theorem elementParts_bytes (size : Option Nat) (elements : List Bytes) :
    (elementParts size elements).map (·.2) = elements := by
  rw [elementParts, List.map_map]
  exact List.map_id elements

/-- Children of one size are the elements of a sequence. -/
theorem eq_elementParts {size : Option Nat} {count : Nat} {parts : List Part}
    {elements : List Bytes} (sizes : parts.map (·.1) = List.replicate count size)
    (bytes : parts.map (·.2) = elements) : parts = elementParts size elements := by
  subst bytes
  rw [elementParts, List.map_map]
  conv_lhs => rw [← List.map_id parts]
  refine List.map_congr_left fun p hp => ?_
  have : p.1 = size := List.eq_of_mem_replicate (sizes ▸ List.mem_map_of_mem hp)
  rw [← this]
  rfl

theorem fits_elementParts {size : Option Nat} {elements : List Bytes} :
    (∀ p ∈ elementParts size elements, p.Fits) ↔
      ∀ width ∈ size, ∀ bytes ∈ elements, bytes.length = width := by
  simp only [elementParts, List.mem_map, forall_exists_index, and_imp, forall_apply_eq_imp_iff₂,
    Part.Fits]
  exact ⟨fun h width hw bytes hb => h bytes hb width hw,
    fun h bytes hb width hw => h width hw bytes hb⟩

/-- Elements of a fixed size stand one after the other. -/
theorem written_fixed {width : Nat} {elements : List Bytes} {bytes : Bytes} :
    Written (elementParts (some width) elements) bytes ↔ bytes = elements.flatten := by
  -- Without offsets it does not matter where the variable part would go on.
  have table (position : Nat) : Addressable position (elementParts (some width) elements) ∧
      header position (elementParts (some width) elements) = elements.flatten ∧
      bodies (elementParts (some width) elements) = [] := by
    induction elements with
    | nil => exact ⟨trivial, rfl, rfl⟩
    | cons element elements ih =>
      obtain ⟨addressable, hheader, hbodies⟩ := ih
      refine ⟨addressable, ?_, hbodies⟩
      rw [List.flatten_cons, ← hheader]
      rfl
  obtain ⟨addressable, hheader, hbodies⟩ := table (headerLength (elementParts (some width) elements))
  constructor
  · intro h
    rw [h.bytes_eq, hheader, hbodies, List.append_nil]
  · rintro rfl
    exact ⟨addressable, by rw [hheader, hbodies, List.append_nil]⟩

@[simp] theorem slotSize_none : slotSize none = offsetSize := rfl

theorem headerLength_elementParts (size : Option Nat) (elements : List Bytes) :
    headerLength (elementParts size elements) = slotSize size * elements.length := by
  rw [headerLength, elementParts_sizes, fixedLength_replicate, Nat.mul_comm]

/-- The first offset of a sequence counts its elements. -/
theorem readOffset_of_written {elements : List Bytes} {bytes : Bytes} (some : elements ≠ [])
    (h : Written (elementParts none elements) bytes) :
    readOffset bytes = offsetSize * elements.length ∧
      offsetSize * elements.length ≤ bytes.length := by
  have enough : offsetSize * elements.length ≤ bytes.length := by
    rw [h.bytes_eq, List.length_append, length_header (fits_elementParts.mpr (by simp)),
      headerLength_elementParts, slotSize_none]
    exact Nat.le_add_right _ _
  obtain ⟨element, rest, rfl⟩ := List.exists_cons_of_ne_nil some
  have addressable := h.addressable
  have bytes_eq := h.bytes_eq
  rw [headerLength_elementParts, slotSize_none] at addressable bytes_eq
  refine ⟨?_, enough⟩
  rw [bytes_eq, elementParts, List.map_cons, header, List.append_assoc,
    readOffset_encode addressable.1]

theorem offsetCount_of_first {shape : String} {regime : Regime} {count : Nat} {bytes : Bytes}
    (some : 0 < count) (first : readOffset bytes = offsetSize * count)
    (enough : offsetSize * count ≤ bytes.length) (admits : regime.Admits count) :
    offsetCount shape regime bytes = .ok count := by
  have four : offsetSize = 4 := rfl
  rw [four] at first enough
  obtain ⟨byte, rest, rfl⟩ : ∃ byte rest, bytes = byte :: rest := by
    refine List.exists_cons_of_ne_nil fun none => ?_
    rw [none, List.length_nil] at enough
    omega
  -- The first offset divides into offsets, of which there is one at least.
  have whole : ¬(4 * count % 4 ≠ 0 ∨ 4 * count = 0) := by omega
  have quotient : 4 * count / 4 = count := by omega
  rw [offsetCount.eq_def]
  cases regime with
  | vector length =>
    have exactly : count = length.toNat := admits
    simp only [first, four]
    rw [if_neg (by omega), if_neg whole, if_neg (by omega), quotient, if_pos exactly]
  | list limit =>
    simp only [first, four]
    rw [if_neg (by omega), if_neg whole, if_neg (by omega), quotient]

theorem admits_of_offsetCount {shape : String} {length : UInt64} {count : Nat} {bytes : Bytes}
    (h : offsetCount shape (.vector length) bytes = .ok count) : count = length.toNat := by
  rw [offsetCount.eq_def] at h
  simp only at h
  split at h
  · cases h
  · split at h
    · cases h
    · split at h
      · cases h
      · split at h
        · rename_i exactly
          cases h
          exact exactly
        · cases h

theorem fixedCount_vector_eq_ok {shape : String} {length : UInt64} {width count : Nat}
    {bytes : Bytes} :
    fixedCount shape (.vector length) width bytes = .ok count ↔
      bytes.length = width * count ∧ count = length.toNat := by
  rw [fixedCount, Nat.mul_comm width count]
  split
  · constructor
    · intro h
      cases h
    · rintro ⟨len, rfl⟩
      omega
  · split
    · constructor
      · intro h
        cases h
      · rintro ⟨len, rfl⟩
        omega
    · constructor
      · intro h
        cases h
        exact ⟨by omega, rfl⟩
      · rintro ⟨-, rfl⟩
        rfl

theorem fixedCount_list_eq_ok {shape : String} {limit : Option UInt64} {width count : Nat}
    {bytes : Bytes} (positive : 0 < width) :
    fixedCount shape (.list limit) width bytes = .ok count ↔ bytes.length = width * count := by
  rw [fixedCount, if_neg (Nat.ne_of_gt positive)]
  split
  · rename_i whole
    have exactly := Nat.mul_div_cancel' (Nat.dvd_of_mod_eq_zero whole)
    constructor
    · intro h
      cases h
      exact exactly.symm
    · intro len
      rw [len, Nat.mul_div_cancel_left _ positive]
  · rename_i partly
    constructor
    · intro h
      cases h
    · intro len
      refine absurd ?_ partly
      rw [len, Nat.mul_mod_right]

/-- A list of elements without bytes is read as the empty list. -/
theorem fixedCount_list_zero_eq_ok {shape : String} {limit : Option UInt64} {count : Nat}
    {bytes : Bytes} :
    fixedCount shape (.list limit) 0 bytes = .ok count ↔ bytes = [] ∧ count = 0 := by
  rw [fixedCount, if_pos rfl]
  cases bytes with
  | nil =>
    constructor
    · intro h
      cases h
      exact ⟨rfl, rfl⟩
    · rintro ⟨-, rfl⟩
      rfl
  | cons byte rest =>
    constructor
    · intro h
      cases h
    · rintro ⟨none, -⟩
      cases none

/-- The elements that were counted fill the buffer, and a vector has as many as it should. -/
theorem length_of_fixedCount {shape : String} {regime : Regime} {width count : Nat} {bytes : Bytes}
    (h : fixedCount shape regime width bytes = .ok count) :
    bytes.length = width * count ∧ (regime.isVector = true → regime.Admits count) := by
  cases regime with
  | vector length =>
    obtain ⟨len, exactly⟩ := fixedCount_vector_eq_ok.mp h
    exact ⟨len, fun _ => exactly⟩
  | list limit =>
    refine ⟨?_, fun vector => nomatch vector⟩
    rcases Nat.eq_zero_or_pos width with rfl | positive
    · obtain ⟨rfl, rfl⟩ := fixedCount_list_zero_eq_ok.mp h
      rfl
    · exact (fixedCount_list_eq_ok positive).mp h

theorem fixedCount_of_length {shape : String} {regime : Regime} {width count : Nat} {bytes : Bytes}
    (counted : width = 0 → regime.isVector) (admits : regime.Admits count)
    (len : bytes.length = width * count) : fixedCount shape regime width bytes = .ok count := by
  cases regime with
  | vector length => exact fixedCount_vector_eq_ok.mpr ⟨len, admits⟩
  | list limit =>
    have positive : 0 < width := Nat.pos_of_ne_zero fun zero => nomatch counted zero
    exact (fixedCount_list_eq_ok positive).mpr len

/-- A buffer in which elements are found is their layout. -/
theorem written_of_elementWindows {shape : String} {regime : Regime} {size : Option Nat}
    {bytes : Bytes} {elements : List Bytes}
    (h : elementWindows shape regime size bytes = .ok elements) :
    regime.Admits elements.length ∧ (∀ p ∈ elementParts size elements, p.Fits) ∧
      Written (elementParts size elements) bytes := by
  cases size with
  | some width =>
    simp only [elementWindows, bind_eq_ok, pure_eq_ok] at h
    obtain ⟨count, hcount, _, hlimit, rfl⟩ := h
    obtain ⟨len, exactly⟩ := length_of_fixedCount hcount
    rw [length_chunks]
    refine ⟨?_, ?_, ?_⟩
    · exact (Regime.checkLimit_eq_ok.mp hlimit).elim exactly id
    · rw [fits_elementParts]
      intro w hw piece mem
      cases hw
      exact length_of_mem_chunks len mem
    · rw [written_fixed, flatten_chunks (Nat.le_of_eq len)]
  | none =>
    simp only [elementWindows, bind_eq_ok] at h
    obtain ⟨count, hcount, _, hlimit, h⟩ := h
    obtain ⟨parts, hsizes, hbytes, fits, written⟩ := written_of_windows h
    have len : elements.length = count := by
      have := congrArg List.length hsizes
      rw [List.length_map, List.length_replicate] at this
      rw [← hbytes, List.length_map, this]
    obtain rfl := eq_elementParts hsizes hbytes
    refine ⟨?_, fits, written⟩
    rw [len]
    -- The limit of a list was checked; the length of a vector was, when its elements were counted.
    refine (Regime.checkLimit_eq_ok.mp hlimit).elim (fun vector => ?_) id
    cases regime with
    | vector length => exact admits_of_offsetCount hcount
    | list limit => cases vector

/-- The elements of a sequence are found in its layout.  A list needs elements that have bytes, a
vector without a fixed size needs elements. -/
theorem elementWindows_of_written {shape : String} {regime : Regime} {size : Option Nat}
    {bytes : Bytes} {elements : List Bytes} (admits : regime.Admits elements.length)
    (fits : ∀ p ∈ elementParts size elements, p.Fits) (counted : size = some 0 → regime.isVector)
    (inhabited : regime ≠ .vector 0) (h : Written (elementParts size elements) bytes) :
    elementWindows shape regime size bytes = .ok elements := by
  cases size with
  | some width =>
    have widths := fits_elementParts.mp fits width rfl
    rw [written_fixed] at h
    have len : bytes.length = width * elements.length := by
      rw [h, List.length_flatten, List.map_congr_left widths, List.map_const', List.sum_replicate_nat,
        Nat.mul_comm]
    have count : fixedCount shape regime width bytes = .ok elements.length :=
      fixedCount_of_length (fun zero => counted (by rw [zero])) admits len
    simp only [elementWindows, bind_eq_ok, pure_eq_ok]
    refine ⟨_, count, (), Regime.checkLimit_eq_ok.mpr (.inr admits), ?_⟩
    rw [h, chunks_flatten widths]
  | none =>
    have count : offsetCount shape regime bytes = .ok elements.length := by
      by_cases none : elements = []
      · -- Nothing says how many elements there are, but only a list may have none.
        subst none
        have empty : bytes = [] := h.bytes_eq
        cases regime with
        | vector length =>
          have zero : length = 0 := UInt64.toNat_inj.mp admits.symm
          exact absurd (congrArg Regime.vector zero) inhabited
        | list limit =>
          rw [empty]
          rfl
      · obtain ⟨first, enough⟩ := readOffset_of_written none h
        exact offsetCount_of_first (List.length_pos_of_ne_nil none) first enough admits
    have windows := @windows_of_written shape _ _ fits h
    rw [elementParts_sizes, elementParts_bytes] at windows
    simp only [elementWindows, bind_eq_ok]
    exact ⟨_, count, (), Regime.checkLimit_eq_ok.mpr (.inr admits), windows⟩

end Layout

end SimpleSerialize
