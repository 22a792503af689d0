/-
Numerals and numbers without a bound.

A numeral of a width is the digits of a number filled up with zeros, and there is one exactly if the
number has no more bits than the width.  What is written with the digits of a library is a numeral
therefore, whichever library it is that keeps the promises of `BigNumbers.Lawful`.  Main statements:

* `LittleEndian.encode_of_le`: zeros fill the numeral of a small number up;
* `BigNumbers.digits_eq`: the digits of a library are a numeral;
* `BigNumbers.length_digits_le`: they are the shortest that there is.
-/
import Mathlib.Algebra.GroupWithZero.Nat
import SimpleSerialize.Bytes.LittleEndian

namespace SimpleSerialize

/-! ### Numerals -/

namespace LittleEndian

variable {narrow wide n : Nat}

theorem capacity_eq_pow (width : Nat) : capacity width = 256 ^ width := by
  induction width with
  | zero => rfl
  | succ width ih => rw [capacity, ih, Nat.pow_succ, Nat.mul_comm]

theorem capacity_eq_two_pow (width : Nat) : capacity width = 2 ^ (8 * width) := by
  rw [capacity_eq_pow, Nat.pow_mul]

theorem capacity_pos (width : Nat) : 0 < capacity width := by
  rw [capacity_eq_pow]
  exact Nat.pow_pos (by decide)

/-- A number has as many bits as a power of two needs to exceed it. -/
theorem bits_le_iff (count : Nat) : bits n ≤ count ↔ n < 2 ^ count := by
  rw [bits]
  split
  · rename_i zero
    subst zero
    exact iff_of_true (Nat.zero_le _) (Nat.two_pow_pos _)
  · rename_i positive
    exact Nat.log2_lt positive

/-- The last digit of a numeral is what is left of the number. -/
theorem encode_concat (width n : Nat) :
    encode (width + 1) n = encode width n ++ [UInt8.ofNat (n / capacity width)] := by
  induction width generalizing n with
  | zero => rw [encode, encode, encode, capacity, Nat.div_one, List.nil_append]
  | succ width ih => rw [encode, ih, encode, capacity, List.cons_append, Nat.div_div_eq_div_mul]

/-- Later digits count for more. -/
theorem decode_append (bs more : Bytes) :
    decode (bs ++ more) = decode bs + capacity bs.length * decode more := by
  induction bs with
  | nil => rw [List.nil_append, decode, List.length_nil, capacity, Nat.zero_add, Nat.one_mul]
  | cons b bs ih =>
    rw [List.cons_append, decode, decode, ih, List.length_cons, capacity, Nat.mul_add, Nat.mul_assoc,
      Nat.add_assoc]

/-- Zeros fill the numeral of a small number up. -/
theorem encode_of_le (le : narrow ≤ wide) (small : n < capacity narrow) :
    encode wide n = encode narrow n ++ List.replicate (wide - narrow) 0 := by
  induction narrow generalizing wide n with
  | zero =>
    obtain rfl : n = 0 := Nat.lt_one_iff.mp small
    rw [encode, List.nil_append, Nat.sub_zero]
    clear le
    induction wide with
    | zero => rfl
    | succ wide ih =>
      rw [encode, Nat.zero_div, ih]
      rfl
  | succ narrow ih =>
    obtain ⟨wide, rfl⟩ : ∃ w, wide = w + 1 := ⟨wide - 1, by omega⟩
    have rest : n / 256 < capacity narrow := Nat.div_lt_of_lt_mul small
    rw [encode, encode, ih (Nat.le_of_succ_le_succ le) rest, Nat.succ_sub_succ, List.cons_append]

theorem take_encode (le : narrow ≤ wide) : (encode wide n).take narrow = encode narrow n := by
  induction narrow generalizing wide n with
  | zero => rfl
  | succ narrow ih =>
    obtain ⟨wide, rfl⟩ : ∃ w, wide = w + 1 := ⟨wide - 1, by omega⟩
    rw [encode, encode, List.take_succ_cons, ih (Nat.le_of_succ_le_succ le)]

end LittleEndian

/-! ### Numbers without a bound -/

namespace BigNumbers

open LittleEndian

/-- What is relied on: bits are no more than a number needs, digits spell the number that they were
made from, the last of them is zero for zero only, and they are read as what they spell. -/
class Lawful [BigNumbers] : Prop where
  bits_le_iff : ∀ n count : Nat, bits n ≤ count ↔ n < 2 ^ count
  decode_digits : ∀ n, decode (digits n) = n
  getLast?_digits : ∀ n, n ≠ 0 → (digits n).getLast? ≠ some 0
  ofDigits_eq : ∀ bs, ofDigits bs = decode bs

variable {n width : Nat}

/-- The numbers that programs use keep the promise. -/
instance : @Lawful standard where
  bits_le_iff _ count := LittleEndian.bits_le_iff count
  decode_digits n := by
    have enough : LittleEndian.bits n ≤ 8 * max 1 ((LittleEndian.bits n + 7) / 8) := by omega
    refine decode_encode ?_
    rw [capacity_eq_two_pow]
    exact (LittleEndian.bits_le_iff _).mp enough
  getLast?_digits n positive := by
    -- With one digit less the number has no numeral.
    obtain ⟨short, count⟩ : ∃ short, max 1 ((LittleEndian.bits n + 7) / 8) = short + 1 :=
      ⟨max 1 ((LittleEndian.bits n + 7) / 8) - 1, by omega⟩
    have whole : n < capacity (short + 1) := by
      rw [capacity_eq_two_pow]
      exact (LittleEndian.bits_le_iff _).mp (by omega)
    have part : ¬ n < capacity short := by
      rw [capacity_eq_two_pow, ← LittleEndian.bits_le_iff]
      have some : LittleEndian.bits n ≠ 0 := by
        rw [LittleEndian.bits, if_neg positive]
        exact Nat.succ_ne_zero _
      omega
    have digits : digits n = LittleEndian.encode short n ++ [UInt8.ofNat (n / capacity short)] := by
      rw [← encode_concat, ← count]
      rfl
    rw [digits, List.getLast?_concat]
    intro zero
    have left : n / capacity short % 256 = 0 := by
      simpa using congrArg UInt8.toNat (Option.some.inj zero)
    have digit : n / capacity short < 256 := Nat.div_lt_of_lt_mul (Nat.mul_comm .. ▸ whole)
    rw [Nat.mod_eq_of_lt digit, Nat.div_eq_zero_iff_lt (capacity_pos short)] at left
    exact part left
  ofDigits_eq _ := rfl

variable [BigNumbers] [Lawful]

/-- A number has a numeral of a width exactly if it has no more bits. -/
theorem bits_le_iff : bits n ≤ 8 * width ↔ n < capacity width := by
  rw [Lawful.bits_le_iff, capacity_eq_two_pow]

/-- The digits of a number are a numeral of it. -/
theorem digits_eq (n : Nat) : digits n = LittleEndian.encode (digits n).length n := by
  have same := encode_decode (digits n)
  rw [Lawful.decode_digits] at same
  exact same.symm

/-- There are no more digits than any numeral has. -/
theorem length_digits_le (positive : n ≠ 0) (small : n < capacity width) :
    (digits n).length ≤ width := by
  rcases List.eq_nil_or_concat (digits n) with none | ⟨front, last, split⟩
  · rw [none]
    exact Nat.zero_le _
  · refine Nat.le_of_not_lt fun more => ?_
    have value := Lawful.decode_digits n
    rw [split, List.concat_eq_append] at value more
    rw [List.length_append, List.length_singleton] at more
    have nonzero : last ≠ 0 := by
      rintro rfl
      refine Lawful.getLast?_digits n positive ?_
      rw [split, List.concat_eq_append, List.getLast?_concat]
    have digit : 0 < last.toNat := Nat.pos_of_ne_zero fun zero => nonzero (UInt8.toNat_inj.mp zero)
    have wide : capacity width ≤ capacity front.length := capacity_mono (by omega)
    have large : capacity front.length ≤ capacity front.length * last.toNat :=
      Nat.le_mul_of_pos_right _ digit
    rw [decode_append, decode, decode, Nat.mul_zero, Nat.add_zero] at value
    omega

end BigNumbers

end SimpleSerialize
