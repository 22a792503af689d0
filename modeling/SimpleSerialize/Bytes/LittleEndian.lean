/-
Little-endian numerals of a given width.

`encode w n` writes the `w` low base-256 digits of `n`, least significant first; `decode` reads a
whole byte string back.  Numbers without a bound come with a library of their own, of which only
what `BigNumbers` lists is used.  Main statements:

* `length_encode`: a numeral of width `w` has `w` bytes;
* `decode_encode`: a number below `capacity w` survives a numeral of width `w`;
* `encode_decode`: every byte string is the numeral of the number it spells.
-/

namespace SimpleSerialize

/-- Byte strings. -/
abbrev Bytes := List UInt8

namespace LittleEndian

/-- How many numbers there are numerals for at a width. -/
def capacity : (width : Nat) → Nat
  | 0 => 1
  | width + 1 => 256 * capacity width

/-- The `w` low base-256 digits of a number, least significant first. -/
def encode : (width : Nat) → Nat → Bytes
  | 0, _ => []
  | width + 1, n => UInt8.ofNat n :: encode width (n / 256)

/-- The number of bits of a number. -/
def bits (n : Nat) : Nat := if n = 0 then 0 else n.log2 + 1

/-- The digits of a number, as many as its bits ask for, and one at least. -/
def digits (n : Nat) : Bytes := encode (max 1 ((bits n + 7) / 8)) n

/-- The number spelled by base-256 digits, least significant first. -/
def decode : Bytes → Nat
  | [] => 0
  | b :: bs => b.toNat + 256 * decode bs

theorem capacity_mono {narrow wide : Nat} (h : narrow ≤ wide) : capacity narrow ≤ capacity wide := by
  induction h with
  | refl => exact Nat.le_refl _
  | step _ ih =>
    rw [capacity]
    omega

@[simp] theorem length_encode (width n : Nat) : (encode width n).length = width := by
  induction width generalizing n with
  | zero => rfl
  | succ width ih => simp [encode, ih]

theorem decode_encode_mod (width n : Nat) : decode (encode width n) = n % capacity width := by
  induction width generalizing n with
  | zero => rw [encode, decode, capacity, Nat.mod_one]
  | succ width ih =>
    have h : (UInt8.ofNat n).toNat = n % 256 := by simp
    rw [encode, decode, ih, h, capacity, Nat.mod_mul]

/-- A number that fits the width is read back. -/
theorem decode_encode {width n : Nat} (h : n < capacity width) : decode (encode width n) = n := by
  rw [decode_encode_mod, Nat.mod_eq_of_lt h]

theorem decode_lt (bs : Bytes) : decode bs < capacity bs.length := by
  induction bs with
  | nil => exact Nat.one_pos
  | cons b bs ih =>
    have hb := b.toNat_lt
    rw [decode, List.length_cons, capacity]
    omega

/-- Every byte string is the numeral of the number it spells. -/
theorem encode_decode (bs : Bytes) : encode bs.length (decode bs) = bs := by
  induction bs with
  | nil => rfl
  | cons b bs ih =>
    have hb : b.toNat < 256 := b.toNat_lt
    have hdiv : (b.toNat + 256 * decode bs) / 256 = decode bs := by omega
    have hmod : UInt8.ofNat (b.toNat + 256 * decode bs) = b := by
      apply UInt8.toNat_inj.mp
      rw [UInt8.toNat_ofNat']
      omega
    rw [decode, List.length_cons, encode, hdiv, hmod, ih]

end LittleEndian

/-- What is used of a library for numbers without a bound. -/
class BigNumbers where
  /-- How many bits a number has. -/
  bits : Nat → Nat
  /-- The base-256 digits of a number, least significant first. -/
  digits : Nat → Bytes
  /-- The number that base-256 digits spell. -/
  ofDigits : Bytes → Nat

namespace BigNumbers

open LittleEndian

instance standard : BigNumbers := ⟨LittleEndian.bits, LittleEndian.digits, decode⟩

theorem ofDigits_eq (bs : Bytes) : ofDigits bs = decode bs := rfl

end BigNumbers

/-- The number spelled by at most `width` digits. -/
def LittleEndian.decodeWithin? [BigNumbers] (width : Nat) (bs : Bytes) : Option Nat :=
  if bs.length ≤ width then some (BigNumbers.ofDigits bs) else none

end SimpleSerialize
