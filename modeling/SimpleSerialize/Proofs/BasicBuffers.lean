/-
Basic values in buffers.

A basic value is written in steps: the integer is checked, its digits are put at the end of the
buffer, and the buffer is filled up with zeros to the width.  The checks are made in two ways, by a
shift for words and by counting bits for other integers; both come to asking whether there is a
numeral of the width.  Main statements:

* `BasicForm.write_eq`: the steps of a writer append the bytes of the value, or nothing;
* `Wrapped.append_basicAt`: what an accessor inside wrappers appends has the size of its shape and
  is read back, and a value that is refused leaves the buffer alone, whatever library the digits of
  numbers come from.
-/
import SimpleSerialize.Proofs.RoundTrip

namespace SimpleSerialize

/-! ### Writers -/

namespace LittleEndian

/-- The shift that is made of a word narrower than its type leaves something exactly if there is no
numeral of it. -/
theorem shiftRight_ne_zero_iff {word : UInt64} {width : Nat} (narrow : width < 8) :
    word >>> UInt64.ofNat (8 * width) ≠ 0 ↔ ¬ word.toNat < capacity width := by
  have amount : (UInt64.ofNat (8 * width)).toNat % 64 = 8 * width := by
    rw [UInt64.toNat_ofNat']
    omega
  rw [ne_eq, ← UInt64.toNat_inj, UInt64.toNat_shiftRight, amount, Nat.shiftRight_eq_div_pow,
    ← capacity_eq_two_pow, UInt64.toNat_zero, Nat.div_eq_zero_iff_lt (capacity_pos width)]

end LittleEndian

namespace Writer

variable {out bs : Bytes} {width : Nat}

/-- A buffer is filled up with zeros. -/
theorem run_resize :
    (resize (out.length + width)).run.run out = (.ok (), out ++ List.replicate width 0) := by
  change (Except.ok (), out.take (out.length + width) ++
    List.replicate (out.length + width - out.length) 0) = _
  rw [List.take_of_length_le (Nat.le_add_right _ _), Nat.add_sub_cancel_left]

/-- Digits are filled up with zeros to a width. -/
theorem run_fill (short : bs.length ≤ width) :
    (do put bs; resize (out.length + width) : Writer Unit).run.run out =
      (.ok (), out ++ (bs ++ List.replicate (width - bs.length) 0)) := by
  have room : out.length + width = (out ++ bs).length + (width - bs.length) := by
    rw [List.length_append]
    omega
  rw [room, ← List.append_assoc]
  exact run_resize

end Writer

namespace BasicForm

open LittleEndian

variable [BigNumbers] {shape : String} {width : Nat} {out : Bytes} {form : BasicForm} {v : Value}

/-- A word is written as its numeral, or not at all. -/
theorem write_word (n : UInt64) : ((uint width).write shape (.uint n)).run.run out =
    if n.toNat < capacity width then (.ok (), out ++ LittleEndian.encode width n.toNat)
    else (.error (.integerOverflow shape width), out) := by
  have word : n.toNat < capacity 8 := n.toNat_lt
  have checked : (width < 8 ∧ n >>> UInt64.ofNat (8 * width) ≠ 0) ↔ ¬ n.toNat < capacity width := by
    by_cases narrow : width < 8
    · rw [shiftRight_ne_zero_iff narrow]
      exact and_iff_right narrow
    · have fits := Nat.lt_of_lt_of_le word (capacity_mono (Nat.le_of_not_lt narrow))
      exact iff_of_false (fun both => narrow both.1) (not_not_intro fits)
  rw [write]
  by_cases small : n.toNat < capacity width
  · have passes := mt checked.mp (not_not_intro small)
    rw [if_pos small]
    simp only [if_neg passes]
    -- All the digits that the width has room for are among those of the word.
    have digits : (LittleEndian.encode 8 n.toNat).take (min width 8) =
        LittleEndian.encode (min width 8) n.toNat := take_encode (Nat.min_le_right _ _)
    have few : n.toNat < capacity (min width 8) := by
      rw [Nat.min_def]
      split <;> assumption
    rw [encode_of_le (Nat.min_le_left width 8) few, ← digits]
    refine (Writer.run_fill ?_).trans ?_
    · rw [digits, length_encode]
      exact Nat.min_le_left _ _
    · rw [digits, length_encode]
  · have refused := checked.mpr small
    rw [if_neg small]
    simp only [if_pos refused]
    rfl

variable [BigNumbers.Lawful]

/-- Any other integer is written as its numeral, or not at all. -/
theorem write_number (n : Nat) : ((uint width).write shape (.bigUint n)).run.run out =
    if n < capacity width then (.ok (), out ++ LittleEndian.encode width n)
    else (.error (.integerOverflow shape width), out) := by
  rw [write]
  by_cases large : 8 * width < BigNumbers.bits n
  · rw [if_neg (mt BigNumbers.bits_le_iff.mpr (Nat.not_le.mpr large))]
    simp only [if_pos large]
    rfl
  · have small : n < capacity width := BigNumbers.bits_le_iff.mp (Nat.le_of_not_lt large)
    rw [if_pos small]
    simp only [if_neg large]
    by_cases zero : n = 0
    · subst zero
      rw [encode_of_le (Nat.zero_le width) Nat.one_pos]
      exact Writer.run_resize
    · -- The digits are a numeral already, of no more than the width.
      have short := BigNumbers.length_digits_le zero small
      have own : n < capacity (BigNumbers.digits n).length := by
        have spelled := decode_lt (BigNumbers.digits n)
        rwa [BigNumbers.Lawful.decode_digits] at spelled
      simp only [if_pos zero]
      rw [encode_of_le short own, ← BigNumbers.digits_eq]
      exact Writer.run_fill short

/-- A writer appends the bytes of the value, or leaves the buffer as it is. -/
theorem write_eq : (form.write shape v).run.run out =
    match form.encode shape v with
    | .ok bs => (.ok (), out ++ bs)
    | .error e => (.error e, out) := by
  cases form with
  | bool => cases v <;> rfl
  | uint width =>
    cases v with
    | uint n =>
      rw [write_word, encode, encodeInteger]
      split <;> rfl
    | bigUint n =>
      rw [write_number, encode, encodeInteger]
      split <;> rfl
    | _ => rfl
  | bytes length =>
    cases v with
    | bytes bs =>
      rw [write, encode]
      by_cases exact : bs.length = length
      · rw [if_neg (not_not_intro exact), if_pos exact]
        rfl
      · rw [if_pos exact, if_neg exact]
        rfl
    | _ => rfl

end BasicForm

/-! ### Accessors inside wrappers -/

/-- The number that an integer stands for. -/
def Value.integer? : Value → Option Nat
  | uint n => some n.toNat
  | bigUint n => some n
  | _ => none

/-- Two values are one, but for how an integer is held. -/
def Value.Means (v w : Value) : Prop := v = w ∨ ∃ n, v.integer? = some n ∧ w.integer? = some n

/-- What is written means the same in the form that it is read in. -/
theorem BasicForm.normal_means {form : BasicForm} {shape : String} {v : Value} {bytes : Bytes}
    (h : form.encode shape v = .ok bytes) : (form.normal v).Means v := by
  rw [encode.eq_def] at h
  split at h
  · exact .inl rfl
  · cases h
  · rename_i width n
    rw [normal]
    split
    · exact .inl rfl
    · exact .inr ⟨n.toNat, rfl, rfl⟩
  · rename_i width n
    rw [normal]
    split
    · rename_i narrow
      have small := (encodeInteger_eq_ok.mp h).1
      have word : n < 2 ^ 64 := Nat.lt_of_lt_of_le small (LittleEndian.capacity_mono narrow)
      exact .inr ⟨n, congrArg some (UInt64.toNat_ofNat_of_lt' word), rfl⟩
    · exact .inl rfl
  · cases h
  · exact .inl rfl
  · cases h

namespace Handler

variable [BigNumbers] [BigNumbers.Lawful] {h : Handler BasicForm} {v : Value} {out out' : Bytes}

theorem append_eq : h.append out v =
    match h.encode v with
    | .ok bs => (.ok (), out ++ bs)
    | .error e => (.error e, out) := BasicForm.write_eq

/-- A value is appended exactly if it has an encoding. -/
theorem append_eq_ok :
    h.append out v = (.ok (), out') ↔ ∃ bytes, h.encode v = .ok bytes ∧ out' = out ++ bytes := by
  rw [append_eq]
  cases h.encode v <;> simp [eq_comm]

theorem eq_of_append_error {e : EncodeError} (failed : h.append out v = (.error e, out')) :
    out' = out := by
  rw [append_eq] at failed
  cases encoded : h.encode v with
  | ok bs =>
    rw [encoded] at failed
    cases failed
  | error e' =>
    rw [encoded] at failed
    cases failed
    rfl

theorem fst_append_eq_ok : (h.append out v).1 = .ok () ↔ ∃ bytes, h.encode v = .ok bytes := by
  rw [append_eq]
  cases h.encode v <;> simp

end Handler

namespace Wrapped

variable {w : Wrapped BasicAccessor} {s : Schema} {d : Descriptor}

/-- The links of an accessor at a use of a shape are its wrappers. -/
theorem links_descend (fs : List Rebuild) (d : Descriptor) :
    (descend s fs d).1.map (·.2) = fs := by
  induction fs generalizing d with
  | nil => rfl
  | cons f fs ih => rw [descend, List.map_cons, ih]

/-- An accessor for basic values, with any library for numbers, inside wrappers that leave values as
they are, at any use of a shape, with any value and any buffer.  If the value is accepted, as many
bytes as the size of the shape come after what was in the buffer, and they are read as the value,
with integers of up to eight bytes as words and others not.  If it is refused the buffer is as it
was.  At a shape of integers of some width, exactly the integers that have a numeral of the width are
accepted, however they are held. -/
theorem append_basicAt [BigNumbers] [BigNumbers.Lawful]
    (identity : ∀ f ∈ w.wrappers, Rebuild.Identity f) (s : Schema) (d : Descriptor) (v : Value)
    (out : Bytes) :
    let h := w.basicAt s d
    (∀ out', h.append out v = (.ok (), out') → ∃ bytes back, out' = out ++ bytes ∧
      bytes.length = h.base.size ∧ h.decode bytes = .ok back ∧ h.base.IsNormal back ∧
      back.Means v) ∧
    (∀ e out', h.append out v = (.error e, out') → out' = out) ∧
    ∀ width : UInt8, w.base = .uint →
      s.declaration? (descend s w.wrappers d).2.shape = some (.basic (.uint width)) →
      h.base.size = width.toNat ∧
      (∀ n, (h.append out (.bigUint n)).1 = .ok () ↔ n < 256 ^ width.toNat) ∧
      ∀ n, (h.append out (.uint n)).1 = .ok () ↔ n.toNat < 256 ^ width.toNat := by
  intro h
  have unchanged : ∀ link ∈ h.links, Rebuild.Identity link.2 := by
    intro link mem
    refine identity link.2 ?_
    rw [← links_descend w.wrappers d]
    exact List.mem_map_of_mem mem
  refine ⟨fun out' appended => ?_, fun e out' failed => Handler.eq_of_append_error failed,
    fun width integers declared => ?_⟩
  · obtain ⟨bytes, encoded, rfl⟩ := Handler.append_eq_ok.mp appended
    refine ⟨bytes, h.base.normal v, rfl, BasicForm.length_of_encode encoded, ?_,
      BasicForm.isNormal_normal encoded, BasicForm.normal_means encoded⟩
    rw [Handler.decode, BasicForm.decode_of_encode encoded, ok_bind, Handler.finish_eq unchanged]
  · have form : h.base = .uint width.toNat := by
      change w.base.form s (descend s w.wrappers d).2.shape = _
      simp only [integers, BasicAccessor.form, declared]
    have accepted {n : Nat} {v : Value} (integer : ∀ shape,
        (BasicForm.uint width.toNat).encode shape v =
          BasicForm.encodeInteger shape width.toNat n) :
        (h.append out v).1 = .ok () ↔ n < 256 ^ width.toNat := by
      rw [Handler.fst_append_eq_ok, Handler.encode, form, integer,
        ← LittleEndian.capacity_eq_pow]
      simp only [BasicForm.encodeInteger_eq_ok, exists_and_left, exists_eq, and_true]
    exact ⟨by rw [form, BasicForm.size], fun n => accepted fun _ => rfl,
      fun n => accepted fun _ => rfl⟩

/-- Nine bytes, one link away and inside two wrappers: a word is filled up, and the numbers that are
accepted end at `256 ^ 9`. -/
theorem append_basicAt_uint72 :
    let s : Schema := { entries := [⟨"uint72", .basic (.uint 9)⟩, ⟨"Tick", .subclass 0 .ok⟩] }
    let w : Wrapped BasicAccessor := ⟨.uint, [.ok, .ok]⟩
    let h := w.basicAt s (s.descriptor 1)
    h.append [7] (.uint 300) = (.ok (), [7, 44, 1, 0, 0, 0, 0, 0, 0, 0]) ∧ h.base.size = 9 ∧
      (h.append [7] (.bigUint (256 ^ 9 - 1))).1 = .ok () ∧
      (h.append [7] (.bigUint (256 ^ 9))).1 ≠ .ok () := by
  intro s w h
  have identity : ∀ f ∈ ([.ok, .ok] : List Rebuild), Rebuild.Identity f := by
    simp [Rebuild.Identity]
  obtain ⟨-, -, integers⟩ := append_basicAt (w := w) identity s (s.descriptor 1)
    (.uint 300) [7]
  obtain ⟨size, accepted, -⟩ := integers 9 rfl rfl
  refine ⟨by decide +kernel, size, (accepted _).mpr ?_,
    fun done => absurd ((accepted _).mp done) ?_⟩
  · decide
  · decide

end Wrapped

end SimpleSerialize
