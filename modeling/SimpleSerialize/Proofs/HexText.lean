/-
Which texts are read as byte strings.

A text is a sequence of characters, while the reader looks at its UTF-8 bytes: it drops the marks
`0x`, reads the digits in pairs and checks the width last.  What these steps accept together is said
here on the characters: marks, as many as there are, and then two digits of either case for every
byte.  All of these characters have seven bits, so that no byte of a longer character is taken for
one of them.  Main statements:

* `Hex.decode?_eq_ok`: the bytes that are read are the bytes that the digits spell;
* `FixedBytes.parse_eq_ok`: exactly the marked digits are accepted, and read as what they spell, with
  any library that keeps the promises of `HexText.Lawful`;
* `FixedBytes.parse_text`: the texts of all widths, and the text of a byte string reads back.
-/
import SimpleSerialize.FixedBytes
import SimpleSerialize.Proofs.Success

namespace SimpleSerialize

/-! ### The bytes of a text -/

section Utf8

variable {c : Char} {text : List Char}

/-- What is read off the end of a byte array follows what was collected. -/
theorem toList_loop (bs : ByteArray) (i : Nat) (collected : Bytes) :
    ByteArray.toList.loop bs i collected = collected.reverse ++ bs.data.toList.drop i := by
  induction i, collected using ByteArray.toList.loop.induct bs with
  | case1 i collected inside ih =>
    have there : i < bs.data.toList.length := inside
    have byte : bs.get! i = bs.data.toList[i] := getElem!_pos bs.data i inside
    rw [ByteArray.toList.loop, if_pos inside, ih, List.reverse_cons, List.append_assoc, byte,
      List.drop_eq_getElem_cons there]
    rfl
  | case2 i collected outside =>
    have past : bs.data.toList.length ≤ i := Nat.le_of_not_lt outside
    rw [ByteArray.toList.loop, if_neg outside, List.drop_eq_nil_of_le past, List.append_nil]

theorem toList_toUTF8 (text : String) : text.toUTF8.toList = text.toByteArray.data.toList :=
  toList_loop text.toByteArray 0 []

/-- Texts of the same bytes are the same text. -/
theorem eq_of_toUTF8 {text text' : String} (same : text.toUTF8.toList = text'.toUTF8.toList) :
    text = text' := by
  rw [toList_toUTF8, toList_toUTF8, Array.toList_inj] at same
  exact String.toByteArray_inj.mp (ByteArray.ext same)

/-- A character of seven bits is one byte. -/
theorem utf8EncodeChar_of_ascii (ascii : c.toNat < 128) :
    String.utf8EncodeChar c = [c.toUInt8] := by
  have one : c.utf8Size = 1 := by
    rw [Char.utf8Size_eq_one_iff, UInt32.le_iff_toNat_le]
    show c.toNat ≤ 127
    omega
  exact String.utf8EncodeChar_eq_singleton one

theorem toUTF8_of_ascii (ascii : ∀ c ∈ text, c.toNat < 128) :
    (String.ofList text).toUTF8.toList = text.map Char.toUInt8 := by
  rw [toList_toUTF8, String.toByteArray_ofList]
  show (text.flatMap String.utf8EncodeChar).toByteArray.data.toList = _
  rw [List.toList_data_toByteArray]
  induction text with
  | nil => rfl
  | cons c text ih =>
    obtain ⟨here, rest⟩ := List.forall_mem_cons.mp ascii
    rw [List.flatMap_cons, utf8EncodeChar_of_ascii here, ih rest]
    rfl

end Utf8

/-! ### Digits -/

namespace Hex

variable {c : Char} {text : List Char} {bytes bs : Bytes} {n position : Nat}

/-- The number that a digit of either case stands for. -/
def value? (c : Char) : Option Nat := "0123456789abcdef".toList.idxOf? c.toLower

/-- The bytes that digits spell: two digits for every byte, the higher one first. -/
inductive Spells : List Char → Bytes → Prop
  | nil : Spells [] []
  | byte {high low : Char} {h l : Nat} {text : List Char} {bs : Bytes} :
    value? high = some h → value? low = some l → Spells text bs →
      Spells (high :: low :: text) (UInt8.ofNat (16 * h + l) :: bs)

/-- Digits have seven bits. -/
theorem ascii_of_value? (digit : value? c = some n) : c.toNat < 128 := by
  have mem : c.toLower ∈ "0123456789abcdef".toList := by
    rw [← List.isSome_idxOf?]
    exact Option.isSome_of_eq_some digit
  have all : ∀ d ∈ "0123456789abcdef".toList, d.toNat < 128 := by simp
  have lower : c.toLower.toNat < 128 := all _ mem
  unfold Char.toLower at lower
  split at lower
  case isTrue upper =>
    -- Capital letters are among the first characters already.
    have small : c.toNat ≤ 90 := UInt32.le_iff_toNat_le.mp upper.2
    omega
  case isFalse => exact lower

/-- A byte is read as the digit of that code point. -/
theorem digit?_eq (b : UInt8) : digit? b = value? (Char.ofNat b.toNat) := by
  have all : ∀ n : Fin 256, digit? (UInt8.ofNat n) = value? (Char.ofNat n) := by decide +kernel
  simpa using all ⟨b.toNat, b.toNat_lt⟩

theorem toUInt8_ofNat (b : UInt8) : (Char.ofNat b.toNat).toUInt8 = b := by
  have valid : b.toNat.isValidChar := .inl (Nat.lt_trans b.toNat_lt (by decide))
  rw [Char.ofNat, dif_pos valid]
  exact UInt8.toNat_inj.mp (Nat.mod_eq_of_lt b.toNat_lt)

theorem digit?_toUInt8 (digit : value? c = some n) : digit? c.toUInt8 = some n := by
  have same : c.toUInt8.toNat = c.toNat := by
    have small : c.toNat < 128 := ascii_of_value? digit
    show c.val.toNat % 256 = c.val.toNat
    have : c.val.toNat < 128 := small
    omega
  rw [digit?_eq, same, Char.ofNat_toNat, digit]

namespace Spells

theorem length_eq (spelled : Spells text bs) : text.length = 2 * bs.length := by
  induction spelled with
  | nil => rfl
  | byte _ _ _ ih =>
    simp only [List.length_cons, ih]
    omega

theorem isSome_value? (spelled : Spells text bs) : ∀ c ∈ text, (value? c).isSome := by
  induction spelled with
  | nil => nofun
  | byte high low _ ih =>
    exact List.forall_mem_cons.mpr
      ⟨Option.isSome_of_eq_some high,
        List.forall_mem_cons.mpr ⟨Option.isSome_of_eq_some low, ih⟩⟩

theorem ascii (spelled : Spells text bs) : ∀ c ∈ text, c.toNat < 128 := by
  intro c mem
  obtain ⟨n, digit⟩ := Option.isSome_iff_exists.mp (spelled.isSome_value? c mem)
  exact ascii_of_value? digit

/-- Digits in even number spell some bytes. -/
theorem of_length (even : text.length = 2 * n) (digits : ∀ c ∈ text, (value? c).isSome) :
    ∃ bs : Bytes, bs.length = n ∧ Spells text bs := by
  induction n generalizing text with
  | zero =>
    obtain rfl := List.length_eq_zero_iff.mp even
    exact ⟨[], rfl, .nil⟩
  | succ n ih =>
    match text, even with
    | high :: low :: text, even =>
      simp only [List.forall_mem_cons, Option.isSome_iff_exists] at digits
      obtain ⟨⟨h, high⟩, ⟨l, low⟩, digits⟩ := digits
      have shorter : text.length = 2 * n := by
        simp only [List.length_cons] at even
        omega
      obtain ⟨bs, length, spelled⟩ :=
        ih shorter fun c mem => Option.isSome_iff_exists.mpr (digits c mem)
      refine ⟨_, ?_, .byte high low spelled⟩
      rw [List.length_cons, length]

/-- What the writer writes spells the bytes it was given. -/
theorem digits (bs : Bytes) : Spells ((Hex.digits bs).map fun b => Char.ofNat b.toNat) bs := by
  have written : ∀ m : Fin 16, value? (Char.ofNat (digit m).toNat) = some m.val := by decide
  induction bs with
  | nil => exact .nil
  | cons b bs ih =>
    have high : b.toNat / 16 < 16 := Nat.div_lt_of_lt_mul b.toNat_lt
    have low : b.toNat % 16 < 16 := Nat.mod_lt _ (by decide)
    have whole : UInt8.ofNat (16 * (b.toNat / 16) + b.toNat % 16) = b := by
      rw [Nat.div_add_mod]
      simp
    have spelled := Spells.byte (written ⟨_, high⟩) (written ⟨_, low⟩) ih
    rw [whole] at spelled
    exact spelled

end Spells

theorem decodePairs_of_spells (spelled : Spells text bs) :
    decodePairs position (text.map Char.toUInt8) = .ok bs := by
  induction spelled generalizing position with
  | nil => rfl
  | byte high low _ ih =>
    simp only [List.map_cons, decodePairs, digit?_toUInt8 high, digit?_toUInt8 low, ih]
    rfl

theorem spells_of_decodePairs (even : bytes.length % 2 = 0)
    (h : decodePairs position bytes = .ok bs) :
    ∃ text, Spells text bs ∧ bytes = text.map Char.toUInt8 := by
  induction position, bytes using decodePairs.induct generalizing bs with
  | case1 position high low rest m l foundLow foundHigh ih =>
    simp only [decodePairs, foundHigh, foundLow] at h
    obtain ⟨tail, read, kept⟩ := bind_eq_ok.mp h
    cases kept
    have shorter : rest.length % 2 = 0 := by
      simp only [List.length_cons] at even
      omega
    obtain ⟨text, spelled, rfl⟩ := ih shorter read
    rw [digit?_eq] at foundHigh foundLow
    refine ⟨_, .byte foundHigh foundLow spelled, ?_⟩
    rw [List.map_cons, List.map_cons, toUInt8_ofNat, toUInt8_ofNat]
  | case2 position high low rest wrong => simp [decodePairs, wrong] at h
  | case3 position high low rest m wrong foundHigh => simp [decodePairs, wrong, foundHigh] at h
  | case4 bytes position short =>
    cases bytes with
    | nil =>
      cases h
      exact ⟨[], .nil, rfl⟩
    | cons high rest =>
      cases rest with
      | nil => cases even
      | cons low rest => exact (short _ _ _ rfl).elim

/-- The bytes that are read are the bytes that the digits spell. -/
theorem decode?_eq_ok :
    decode? bytes = .ok bs ↔ ∃ text, Spells text bs ∧ bytes = text.map Char.toUInt8 := by
  constructor
  · intro h
    unfold decode? at h
    split at h
    · cases h
    · exact spells_of_decodePairs (by omega) h
  · rintro ⟨text, spelled, rfl⟩
    have even : ¬ (text.map Char.toUInt8).length % 2 = 1 := by
      rw [List.length_map, spelled.length_eq]
      omega
    rw [decode?, if_neg even, decodePairs_of_spells spelled]

end Hex

/-! ### Marks -/

/-- What is relied on of a library for hexadecimal text: it reads the bytes that digits of either
case spell, and nothing but digits, and what it writes spells the bytes it was given. -/
class HexText.Lawful [HexText] : Prop where
  decode?_eq_ok : ∀ text bs : Bytes, HexText.decode? text = .ok bs ↔
    ∃ digits, Hex.Spells digits bs ∧ text = digits.map Char.toUInt8
  encode_spells : ∀ bs, Hex.Spells (HexText.encode bs).toList bs

/-- The texts of programs are such. -/
instance : @HexText.Lawful .standard where
  decode?_eq_ok _ _ := Hex.decode?_eq_ok
  encode_spells bs := by
    have text : (HexText.encode bs).toList = (Hex.digits bs).map fun b => Char.ofNat b.toNat :=
      String.toList_ofList
    exact text ▸ Hex.Spells.digits bs

namespace FixedBytes

open Hex

variable {n marks : Nat} {text : String} {digits : List Char} {bytes bs : Bytes}

/-- Digits behind a number of marks `0x`. -/
def marked : (marks : Nat) → List Char → List Char
  | 0, digits => digits
  | marks + 1, digits => '0' :: 'x' :: marked marks digits

@[simp] theorem length_marked (marks : Nat) (digits : List Char) :
    (marked marks digits).length = 2 * marks + digits.length := by
  induction marks with
  | zero => simp [marked]
  | succ marks ih =>
    simp only [marked, List.length_cons, ih]
    omega

theorem ascii_marked (ascii : ∀ c ∈ digits, c.toNat < 128) :
    ∀ c ∈ marked marks digits, c.toNat < 128 := by
  induction marks with
  | zero => exact ascii
  | succ marks ih =>
    exact List.forall_mem_cons.mpr ⟨by decide, List.forall_mem_cons.mpr ⟨by decide, ih⟩⟩

/-- No digits start with a mark. -/
theorem dropMarks_of_spells (spelled : Spells digits bs) :
    dropMarks (digits.map Char.toUInt8) = digits.map Char.toUInt8 := by
  cases spelled with
  | nil => rfl
  | @byte high low h l text bs first second rest =>
    have noMark : low.toUInt8 ≠ 120 := by
      intro same
      have digit : digit? 120 = some l := same ▸ digit?_toUInt8 second
      cases digit
    rw [List.map_cons, List.map_cons, dropMarks.eq_2]
    intro rest same
    injection same with _ same
    injection same with same _
    exact noMark same

theorem dropMarks_marked (spelled : Spells digits bs) :
    dropMarks ((marked marks digits).map Char.toUInt8) = digits.map Char.toUInt8 := by
  induction marks with
  | zero => exact dropMarks_of_spells spelled
  | succ marks ih => exact ih

/-- What is dropped from the front of a text are marks. -/
theorem exists_marked (bytes : Bytes) (left : dropMarks bytes = digits.map Char.toUInt8) :
    ∃ marks, bytes = (marked marks digits).map Char.toUInt8 := by
  induction bytes using dropMarks.induct with
  | case1 rest ih =>
    obtain ⟨marks, rfl⟩ := ih left
    exact ⟨marks + 1, rfl⟩
  | case2 bytes noMark =>
    rw [dropMarks.eq_2 _ noMark] at left
    exact ⟨0, left⟩

/-! ### Whole texts -/

section

variable [HexText] {x : FixedBytes n}

theorem parseBytes_eq_ok :
    parseBytes n bytes = .ok x ↔ HexText.decode? (dropMarks bytes) = .ok x.bytes := by
  simp only [parseBytes, bind_eq_ok, mapError_eq_ok, ofBytes?_eq_ok, exists_eq_right]

variable [HexText.Lawful]

/-- Exactly the marked digits are accepted, and read as what they spell. -/
theorem parse_eq_ok :
    parse n text = .ok x ↔
      ∃ marks digits, text = String.ofList (marked marks digits) ∧ Spells digits x.bytes := by
  rw [parse, parseBytes_eq_ok, HexText.Lawful.decode?_eq_ok]
  constructor
  · rintro ⟨digits, spelled, left⟩
    obtain ⟨marks, same⟩ := exists_marked _ left
    refine ⟨marks, digits, eq_of_toUTF8 ?_, spelled⟩
    rw [same, toUTF8_of_ascii (ascii_marked spelled.ascii)]
  · rintro ⟨marks, digits, rfl, spelled⟩
    refine ⟨digits, spelled, ?_⟩
    rw [toUTF8_of_ascii (ascii_marked spelled.ascii), dropMarks_marked spelled]

end

/-- A text is read as a byte string of `n` bytes exactly when it is `2 * n` digits of either case
behind marks `0x`, and the bytes are those that the digits spell.  The text of a byte string is read
as that byte string. -/
theorem parse_text [HexText] [HexText.Lawful] (n : Nat) :
    (∀ text, (∃ x, parse n text = .ok x) ↔
      ∃ marks digits, text = String.ofList (marked marks digits) ∧ digits.length = 2 * n ∧
        ∀ c ∈ digits, (value? c).isSome) ∧
    (∀ text x, parse n text = .ok x ↔
      ∃ marks digits, text = String.ofList (marked marks digits) ∧ digits.length = 2 * n ∧
        Spells digits x.bytes) ∧
    ∀ x : FixedBytes n, parse n x.display = .ok x := by
  refine ⟨fun text => ?_, fun text x => ?_, fun x => ?_⟩
  · constructor
    · rintro ⟨x, read⟩
      obtain ⟨marks, digits, rfl, spelled⟩ := parse_eq_ok.mp read
      exact ⟨marks, digits, rfl, x.length_eq ▸ spelled.length_eq, spelled.isSome_value?⟩
    · rintro ⟨marks, digits, rfl, even, all⟩
      obtain ⟨bs, length, spelled⟩ := Spells.of_length even all
      exact ⟨⟨bs, length⟩, parse_eq_ok.mpr ⟨marks, digits, rfl, spelled⟩⟩
  · rw [parse_eq_ok]
    constructor
    · rintro ⟨marks, digits, rfl, spelled⟩
      exact ⟨marks, digits, rfl, x.length_eq ▸ spelled.length_eq, spelled⟩
    · rintro ⟨marks, digits, rfl, -, spelled⟩
      exact ⟨marks, digits, rfl, spelled⟩
  · refine parse_eq_ok.mpr ⟨1, _, ?_, HexText.Lawful.encode_spells x.bytes⟩
    rw [display, hex, ← String.toList_inj, String.toList_append]
    simp only [String.toList_ofList]
    rfl

/-- Digits of both cases behind a mark, and the text of the bytes that they spell. -/
theorem parse_text_mixed :
    let x : FixedBytes 2 := ⟨[0xab, 0x01], rfl⟩
    parse 2 "0xAb01" = .ok x ∧ parse 2 x.display = .ok x := by
  intro x
  obtain ⟨-, read, back⟩ := parse_text 2
  have spelled : Spells ['A', 'b', '0', '1'] x.bytes :=
    .byte (h := 10) (l := 11) rfl rfl (.byte (h := 0) (l := 1) rfl rfl .nil)
  exact ⟨(read _ _).mpr ⟨1, _, rfl, rfl, spelled⟩, back x⟩

/-- Two marks are as good as one, although the writer writes one. -/
theorem parse_two_marks :
    ¬ ∀ n text, (∃ x, parse n text = .ok x) ↔
      ∃ marks digits, marks ≤ 1 ∧ text = String.ofList (marked marks digits) ∧
        digits.length = 2 * n ∧ ∀ c ∈ digits, (value? c).isSome := by
  intro strict
  have read : parse 1 "0x0x00" = .ok (.zero 1) :=
    parse_eq_ok.mpr ⟨2, ['0', '0'], rfl, .byte (h := 0) (l := 0) rfl rfl .nil⟩
  obtain ⟨marks, digits, few, same, length, -⟩ := (strict 1 "0x0x00").mp ⟨_, read⟩
  -- Six characters are at least two marks and two digits.
  have six : 6 = (marked marks digits).length :=
    (congrArg String.length same).trans String.length_ofList
  rw [length_marked, length] at six
  omega

end FixedBytes

end SimpleSerialize
