/-
Decoding errors tell the truth.

When bytes cannot be read, the error holds numbers: the bytes needed and the bytes there, the bytes
left over, an offset and what it should have been.  `DecodeError.Truthful` says that these numbers
show the fault.  They do with one exception: the bytes that the offsets of a vector need are counted
in 64 bits without a check, and the count is wrong for vectors of `2 ^ 62` elements or more, which
resolution lets through.  `Format.Miscounts` tells such errors.  Main statements:

* `Layout.offsetCount_failsOnly`: where that count enters, and what it does to the errors;
* `Format.decode_failsOnly`: every error in reading a value is truthful or of that kind;
* `Catalog.sizesFit_of_format`: no size that resolution lets through needs more than 32 bits;
* `Codec.decode_truthful`, `Codec.decode_not_truthful`: the same of codecs, and errors that lie.
-/
import Mathlib.Algebra.GroupWithZero.Nat
import SimpleSerialize.Proofs.Session
import SimpleSerialize.Proofs.Walk

namespace SimpleSerialize

/-! ### Errors of some kind -/

section Failing

variable {ε α β : Type} {P Q : ε → Prop} {x : Except ε α}

/-- A computation succeeds, or fails with an error of some kind. -/
def FailsOnly (P : ε → Prop) (x : Except ε α) : Prop := ∀ e, x = .error e → P e

theorem failsOnly_ok (a : α) : FailsOnly P (.ok a : Except ε α) := nofun

theorem failsOnly_error {e : ε} (h : P e) : FailsOnly P (.error e : Except ε α) := by
  rintro _ ⟨⟩
  exact h

theorem FailsOnly.imp (h : FailsOnly P x) (step : ∀ e, P e → Q e) : FailsOnly Q x :=
  fun e failed => step e (h e failed)

theorem FailsOnly.bind {next : α → Except ε β} (h : FailsOnly P x)
    (rest : ∀ a, FailsOnly P (next a)) : FailsOnly P (x >>= next) := by
  cases x with
  | ok a => exact rest a
  | error e => exact failsOnly_error (h e rfl)

theorem FailsOnly.map {g : α → β} (h : FailsOnly P x) : FailsOnly P (x.map g) := by
  cases x with
  | ok a => exact failsOnly_ok (g a)
  | error e => exact failsOnly_error (h e rfl)

theorem FailsOnly.ite {y : Except ε α} {p : Prop} [Decidable p] (yes : p → FailsOnly P x)
    (no : ¬p → FailsOnly P y) : FailsOnly P (if p then x else y) := by
  split
  · exact yes ‹_›
  · exact no ‹_›

theorem FailsOnly.mapM {step : α → Except ε β} {as : List α}
    (each : ∀ a ∈ as, FailsOnly P (step a)) : FailsOnly P (as.mapM step) := by
  induction as with
  | nil => exact failsOnly_ok []
  | cons a as ih =>
    rw [List.mapM_cons]
    refine (each a List.mem_cons_self).bind fun b => ?_
    refine (ih fun a' mem => each a' (List.mem_cons_of_mem a mem)).bind fun bs => ?_
    exact failsOnly_ok (b :: bs)

end Failing

/-! ### Truth -/

/-- An offset has the fault that it is said to have. -/
def OffsetFault.Holds (offset : Nat) : OffsetFault → Prop
  | first expected => offset ≠ expected
  | decreasing previous => offset < previous
  | outOfRange limit => limit < offset
  | misaligned => offset = 0 ∨ offset % Layout.offsetSize ≠ 0

/-- The numbers in an error show the fault that it reports. -/
def DecodeError.Truthful : DecodeError → Prop
  | truncated _ needed available => available < needed
  | trailing _ residual => 0 < residual
  | malformedOffset _ _ offset fault => fault.Holds offset
  | maxSize _ error => ∃ limit actual, error = .tooLong limit actual ∧ limit < actual
  | _ => True

open DecodeError

/-- The number of bytes that offsets need does not fit into 64 bits, and an error holds what is left
of it. -/
inductive Layout.Miscounts (shape : String) (length : UInt64) : DecodeError → Prop
  | truncated {available : Nat} : 2 ^ 62 ≤ length.toNat → available < offsetSize →
    Miscounts shape length (.truncated shape (length * 4).toNat available)
  | first {offset : Nat} : 2 ^ 62 ≤ length.toNat → offset ≠ length.toNat * offsetSize →
    Miscounts shape length (.malformedOffset shape 0 offset (.first (length * 4).toNat))

namespace Layout

variable {shape : String} {bytes : Bytes} {regime : Regime} {length : UInt64}

theorem checkOffset_failsOnly (fixed total index : Nat) (previous : Option Nat) (offset : Nat) :
    FailsOnly Truthful (checkOffset shape fixed total index previous offset) := by
  cases previous with
  | none => exact .ite (fun _ => failsOnly_ok ()) fun wrong => failsOnly_error wrong
  | some previous =>
    refine .ite (fun back => failsOnly_error back) fun _ => ?_
    exact .ite (fun beyond => failsOnly_error beyond) fun _ => failsOnly_ok ()

theorem slots_failsOnly (fixed total index : Nat) (previous : Option Nat) (sizes : List (Option Nat))
    (bytes : Bytes) : FailsOnly Truthful (slots shape fixed total index previous sizes bytes) := by
  induction sizes generalizing index previous bytes with
  | nil => exact failsOnly_ok []
  | cons size sizes ih =>
    cases size with
    | some width => exact (ih _ _ _).bind fun rest => failsOnly_ok _
    | none =>
      refine (checkOffset_failsOnly _ _ _ _ _).bind fun _ => ?_
      exact (ih _ _ _).bind fun rest => failsOnly_ok _

theorem windows_failsOnly (sizes : List (Option Nat)) :
    FailsOnly Truthful (windows shape sizes bytes) := by
  refine .ite (fun short => failsOnly_error short) fun _ => ?_
  refine (slots_failsOnly _ _ _ _ _ _).bind fun found => ?_
  exact .ite (fun beyond => failsOnly_error (Nat.sub_pos_of_lt beyond.2)) fun _ => failsOnly_ok _

theorem checkLimit_failsOnly (count : Nat) : FailsOnly Truthful (regime.checkLimit shape count) := by
  unfold Regime.checkLimit
  split
  · refine .ite (fun _ => failsOnly_ok ()) fun beyond => ?_
    exact failsOnly_error ⟨_, _, rfl, Nat.lt_of_not_le beyond⟩
  · exact failsOnly_ok ()

theorem fixedCount_failsOnly (width : Nat) :
    FailsOnly Truthful (fixedCount shape regime width bytes) := by
  cases regime with
  | vector length =>
    refine .ite (fun short => failsOnly_error short) fun _ => ?_
    exact .ite (fun beyond => failsOnly_error (Nat.sub_pos_of_lt beyond)) fun _ => failsOnly_ok _
  | list limit =>
    refine .ite (fun _ => .ite (fun _ => failsOnly_ok 0) fun more => ?_) fun _ => ?_
    · exact failsOnly_error (List.length_pos_iff.mpr fun empty => more (List.isEmpty_iff.mpr empty))
    · exact .ite (fun _ => failsOnly_ok _) fun rest => failsOnly_error (Nat.pos_of_ne_zero rest)

theorem fixedLength_le {sizes : List (Option Nat)} {most : Nat}
    (each : ∀ size ∈ sizes, slotSize size ≤ most) : fixedLength sizes ≤ sizes.length * most := by
  induction sizes with
  | nil => exact Nat.zero_le _
  | cons size sizes ih =>
    obtain ⟨here, rest⟩ := List.forall_mem_cons.mp each
    rw [fixedLength, List.length_cons, Nat.succ_mul, Nat.add_comm]
    exact Nat.add_le_add (ih rest) here

/-- The number of bytes that the offsets of a vector need is what it should be, if it fits. -/
theorem toNat_mul_four (small : length.toNat < 2 ^ 62) :
    (length * 4).toNat = length.toNat * offsetSize := by
  rw [UInt64.toNat_mul]
  exact Nat.mod_eq_of_lt (by simp; omega)

/-- A vector whose first offset is cut off needs more bytes than there are, as far as they are
counted. -/
theorem truncated_or_miscounts (inhabited : length ≠ 0) (short : bytes.length < offsetSize) :
    Truthful (.truncated shape (length * 4).toNat bytes.length) ∨
      Miscounts shape length (.truncated shape (length * 4).toNat bytes.length) := by
  by_cases small : length.toNat < 2 ^ 62
  · have positive : 0 < length.toNat := Nat.pos_of_ne_zero fun zero =>
      inhabited (UInt64.toNat_inj.mp zero)
    left
    rw [toNat_mul_four small]
    exact Nat.lt_of_lt_of_le short (Nat.le_mul_of_pos_left offsetSize positive)
  · exact .inr (.truncated (Nat.le_of_not_lt small) short)

/-- A first offset that counts another number of elements does not stand where it should, as far as
that is counted. -/
theorem first_or_miscounts {offset : Nat} (aligned : offset % offsetSize = 0)
    (other : offset / offsetSize ≠ length.toNat) :
    Truthful (.malformedOffset shape 0 offset (.first (length * 4).toNat)) ∨
      Miscounts shape length (.malformedOffset shape 0 offset (.first (length * 4).toNat)) := by
  have apart : offset ≠ length.toNat * offsetSize := by
    rw [offsetSize] at *
    omega
  by_cases small : length.toNat < 2 ^ 62
  · left
    rw [toNat_mul_four small]
    exact apart
  · exact .inr (.first (Nat.le_of_not_lt small) apart)

/-- Elements are counted by the first offset.  The bytes that a vector needs for its offsets are the
one number that can be wrong. -/
theorem offsetCount_failsOnly (inhabited : regime ≠ .vector 0) :
    FailsOnly (fun e => e.Truthful ∨ ∃ length, regime = .vector length ∧ Miscounts shape length e)
      (offsetCount shape regime bytes) := by
  cases regime with
  | vector length =>
    have nonzero : length ≠ 0 := fun zero => inhabited (zero ▸ rfl)
    refine .ite (fun short => failsOnly_error ?_) fun _ => ?_
    · exact (truncated_or_miscounts nonzero short).imp_right fun wrong => ⟨length, rfl, wrong⟩
    refine .ite (fun wrong => failsOnly_error (.inl wrong.symm)) fun aligned => ?_
    refine .ite (fun beyond => failsOnly_error (.inl beyond)) fun _ => ?_
    refine .ite (fun _ => failsOnly_ok _) fun other => failsOnly_error ?_
    have aligned := not_not.mp (not_or.mp aligned).1
    exact (first_or_miscounts aligned other).imp_right fun wrong => ⟨length, rfl, wrong⟩
  | list limit =>
    cases bytes with
    | nil => exact failsOnly_ok 0
    | cons b bytes =>
      refine .ite (fun short => failsOnly_error (.inl short)) fun _ => ?_
      refine .ite (fun wrong => failsOnly_error (.inl wrong.symm)) fun _ => ?_
      exact .ite (fun beyond => failsOnly_error (.inl beyond)) fun _ => failsOnly_ok _

theorem elementWindows_failsOnly (inhabited : regime ≠ .vector 0) (size : Option Nat) :
    FailsOnly (fun e => e.Truthful ∨
        size = none ∧ ∃ length, regime = .vector length ∧ Miscounts shape length e)
      (elementWindows shape regime size bytes) := by
  cases size with
  | some width =>
    refine ((fixedCount_failsOnly width).imp fun _ => .inl).bind fun count => ?_
    exact ((checkLimit_failsOnly count).imp fun _ => .inl).bind fun _ => failsOnly_ok _
  | none =>
    refine ((offsetCount_failsOnly inhabited).imp fun _ => Or.imp_right (⟨rfl, ·⟩)).bind fun count => ?_
    refine ((checkLimit_failsOnly count).imp fun _ => .inl).bind fun _ => ?_
    exact (windows_failsOnly _).imp fun _ => .inl

end Layout

/-! ### Accessors -/

section Accessors

variable {α : Type}

theorem Handler.finish_failsOnly (h : Handler α) (v : Value) : FailsOnly Truthful (h.finish v) := by
  rw [finish]
  generalize h.links.reverse = links
  induction links generalizing v with
  | nil => exact failsOnly_ok v
  | cons link links ih =>
    rw [List.foldlM_cons]
    refine FailsOnly.bind ?_ ih
    rw [relink]
    split
    · exact failsOnly_ok _
    · exact failsOnly_error trivial

theorem Handler.decode_failsOnly (a : Handler BasicForm) (bytes : Bytes) :
    FailsOnly Truthful (a.decode bytes) := by
  refine FailsOnly.bind ?_ a.finish_failsOnly
  unfold BasicForm.decode
  split
  · exact failsOnly_ok _
  · exact failsOnly_ok _
  · exact failsOnly_error trivial
  · exact .ite (fun _ => failsOnly_ok _) fun _ => failsOnly_ok _
  · exact failsOnly_ok _

theorem ListAccessor.byteOf_failsOnly (shape : String) (item : Value) :
    FailsOnly Truthful (byteOf shape item) := by
  unfold byteOf
  split
  · exact .ite (fun _ => failsOnly_ok _) fun _ => failsOnly_error trivial
  · exact failsOnly_error trivial

theorem ListAccessor.create_failsOnly (shape : String) (a : ListAccessor) (items : List Value) :
    FailsOnly Truthful (a.create shape items) := by
  cases a with
  | sequence => exact failsOnly_ok _
  | byteSequence => exact (FailsOnly.mapM fun item _ => byteOf_failsOnly shape item).map

theorem Handler.createList_failsOnly (a : Handler ListAccessor) (items : List Value) :
    FailsOnly Truthful (a.createList items) :=
  (a.base.create_failsOnly a.shape items).bind a.finish_failsOnly

end Accessors

/-! ### Formats -/

/-- A condition holds of a tree or of some part of it, however deep. -/
inductive Somewhere {τ : Type} (parts : τ → List τ) (P : τ → Prop) : τ → Prop
  | here {t : τ} : P t → Somewhere parts P t
  | inside {t s : τ} : s ∈ parts t → Somewhere parts P s → Somewhere parts P t

namespace Format

/-- The bytes that the offsets of some vector in the format need are counted wrong, and the error
says so many. -/
def Miscounts (e : DecodeError) : Format → Prop :=
  Somewhere parts fun
    | list head _ (.vector length) element =>
      element.fixedSize = none ∧ Layout.Miscounts head.name length e
    | _ => False

theorem checkSize_failsOnly (shape : String) (size actual : Nat) :
    FailsOnly Truthful (checkSize shape size actual) := by
  refine .ite (fun short => failsOnly_error short) fun _ => ?_
  exact .ite (fun long => failsOnly_error (Nat.sub_pos_of_lt long)) fun _ => failsOnly_ok ()

/-- Whatever goes wrong in reading a value, the error shows the fault, unless it comes from a vector
of which the offsets are counted wrong. -/
theorem decode_failsOnly {f : Format} (lawful : f.Lawful) (bytes : Bytes) :
    FailsOnly (fun e => e.Truthful ∨ f.Miscounts e) (f.decode bytes) := by
  have truthful {α : Type} {x : Except DecodeError α} {g : Format} (h : FailsOnly Truthful x) :
      FailsOnly (fun e => e.Truthful ∨ g.Miscounts e) x := h.imp fun _ => .inl
  have below {g part : Format} (mem : part ∈ g.parts) {bytes : Bytes}
      (h : FailsOnly (fun e => e.Truthful ∨ part.Miscounts e) (part.decode bytes)) :
      FailsOnly (fun e => e.Truthful ∨ g.Miscounts e) (part.decode bytes) :=
    h.imp fun _ => Or.imp_right (.inside mem)
  induction f generalizing bytes with
  | basic head a =>
    exact truthful ((checkSize_failsOnly _ _ _).bind fun _ => a.decode_failsOnly bytes)
  | list head a regime element ih =>
    obtain ⟨inhabited, -⟩ := lawful.here
    have element_lawful := lawful.inside element List.mem_cons_self
    rw [decode]
    refine FailsOnly.bind ?_ fun windows => FailsOnly.bind (.mapM fun window _ => ?_) fun items => ?_
    · refine (Layout.elementWindows_failsOnly inhabited element.fixedSize).imp fun e => Or.imp_right ?_
      rintro ⟨unsized, length, rfl, wrong⟩
      exact .here ⟨unsized, wrong⟩
    · exact below List.mem_cons_self (ih element_lawful window)
    · exact truthful (a.createList_failsOnly items)
  | union head a nullable variants ih =>
    rw [decode]
    refine .ite (fun short => failsOnly_error (.inl short)) fun _ => ?_
    simp only [decoders_eq, Variant.select_map]
    cases chosen : Variant.select nullable variants (UInt32.ofNat (Layout.readOffset bytes)) with
    | none => exact failsOnly_error (.inl trivial)
    | some variant =>
      cases variant with
      | empty =>
        refine .ite (fun _ => truthful (a.finish_failsOnly _)) fun more => failsOnly_error (.inl ?_)
        exact List.length_pos_iff.mpr fun empty => more (List.isEmpty_iff.mpr empty)
      | body g =>
        have mem := Variant.mem_of_select chosen
        refine (below mem (ih g mem (lawful.inside g mem) _)).bind fun body => ?_
        exact truthful (a.finish_failsOnly _)
  | container head a fields size ih =>
    rw [decode]
    refine (truthful (Layout.windows_failsOnly _)).bind fun windows => ?_
    refine FailsOnly.bind (.mapM fun p mem => ?_) fun values => truthful (a.finish_failsOnly _)
    obtain ⟨run, window⟩ := p
    rw [decoders_eq] at mem
    obtain ⟨field, here, rfl⟩ := List.mem_map.mp (List.of_mem_zip mem).1
    exact below here (ih field here (lawful.inside field here) window)

/-- The fixed size of every node is counted in 32 bits. -/
def SizesFit : Format → Prop :=
  Everywhere parts fun f => ∀ size ∈ f.fixedSize, size ≤ Catalog.maxFixedSize

/-- No product and no sum that errors are made of comes near the greatest word: the size of a vector
fits into 32 bits, and so do the slots of a container one by one. -/
def CountsFit : Format → Prop :=
  Everywhere parts fun
    | list _ _ (.vector length) element =>
      ∀ width ∈ element.fixedSize, length.toNat * width ≤ Catalog.maxFixedSize
    | container _ _ fields _ =>
      Layout.fixedLength (fields.map fixedSize) ≤ fields.length * Catalog.maxFixedSize
    | _ => True

theorem SizesFit.slotSize_le {f : Format} (fit : f.SizesFit) :
    Layout.slotSize f.fixedSize ≤ Catalog.maxFixedSize := by
  cases size : f.fixedSize with
  | none => decide
  | some size => exact fit.here _ ‹_›

theorem SizesFit.countsFit {f : Format} (fit : f.SizesFit) : f.CountsFit := by
  induction fit with
  | @node f here inside ih =>
    refine .node ?_ ih
    split
    · rename_i head a length element
      intro width sized
      refine here _ ?_
      rw [fixedSize, Option.mem_def.mp sized, Option.map_some]
      rfl
    · rename_i head a fields size
      have slots : ∀ size ∈ fields.map fixedSize, Layout.slotSize size ≤ Catalog.maxFixedSize :=
        List.forall_mem_map.mpr fun field mem => SizesFit.slotSize_le (inside field mem)
      simpa using Layout.fixedLength_le slots
    · trivial

end Format

/-! ### Resolution -/

namespace Catalog

variable {c : Catalog} {d : Descriptor} {f : Format} {bound : Nat}

theorem size_form_le (a : BasicAccessor) (s : Schema) (id : ShapeId) :
    (a.form s id).size ≤ maxFixedSize := by
  unfold BasicAccessor.form
  split
  · decide
  · rename_i width _
    have := width.toNat_lt
    simp only [BasicForm.size, maxFixedSize]
    omega
  · decide
  · rename_i length _
    have := length.toNat_lt
    simp only [BasicForm.size, maxFixedSize]
    omega
  · decide

theorem size_of_outline {a : Handler BasicForm} (h : c.outline d = .ok (.basic a)) :
    a.base.size ≤ maxFixedSize := by
  rw [Catalog.outline, bind_eq_ok] at h
  obtain ⟨access, -, h⟩ := h
  split at h <;> cases h
  exact size_form_le _ c.schema _

theorem sizesFit_of_formatBelow (h : c.formatBelow bound d = .ok f) : f.SizesFit := by
  induction bound generalizing d f with
  | zero => cases h
  | succ bound ih =>
    obtain ⟨outline, parts, ho, hp, h⟩ := formatBelow_succ_eq_ok.mp h
    have inside : ∀ p ∈ parts, p.SizesFit := forall_right hp fun _ _ => ih
    cases outline with
    | basic a =>
      cases h
      refine .node (fun size same => ?_) (List.forall_mem_nil _)
      obtain rfl : a.base.size = size := Option.some.inj same
      exact size_of_outline ho
    | list a size element =>
      cases hp with
      | cons hp _ =>
        simp only [finish, bind_eq_ok] at h
        obtain ⟨regime, -, h⟩ := h
        obtain ⟨rfl, small⟩ := checkFixedSize_eq_ok.mp h
        exact .node small (List.forall_mem_singleton.mpr (inside _ List.mem_cons_self))
    | union a nullable variants =>
      cases h
      exact .node (fun _ same => by cases same) inside
    | container a fields =>
      simp only [finish] at h
      obtain ⟨rfl, small⟩ := checkFixedSize_eq_ok.mp h
      exact .node small inside

/-- Resolution lets no size through that does not fit into 32 bits. -/
theorem sizesFit_of_format (h : c.format d = .ok f) : f.SizesFit := sizesFit_of_formatBelow h

end Catalog

/-! ### Codecs -/

namespace Codec

variable {catalog : Catalog} {hasher : Hasher} {c : Codec} {shape : ShapeId} {f : Format}

/-- An error in decoding shows its fault, unless it comes from a vector of `2 ^ 62` elements or more
that have no fixed size: the bytes of its offsets are counted without a check.  No other count can go
wrong. -/
theorem decode_truthful (session : Session catalog hasher c)
    (resolved : catalog.format (catalog.schema.descriptor shape) = .ok f) :
    f.CountsFit ∧ ∀ bytes e, ((decode shape bytes).run c).1 = .error e →
      ∃ fault, e = .decode fault ∧ (fault.Truthful ∨ f.Miscounts fault) := by
  refine ⟨(Catalog.sizesFit_of_format resolved).countsFit, fun bytes e failed => ?_⟩
  rw [decode, run_withFormat session resolved, mapError_eq_error] at failed
  obtain ⟨fault, failed, rfl⟩ := failed
  exact ⟨fault, rfl, Format.decode_failsOnly (Catalog.lawful_of_format resolved) bytes fault failed⟩

/-- Lists of bytes, and vectors of such lists that are longer than any memory. -/
def endlessSchema : Schema where
  entries := [
    ⟨"uint8", .basic (.uint 1)⟩,
    ⟨"List[uint8]", .sequence 0 .unbounded⟩,
    ⟨"Vector[List[uint8],2]", .sequence 1 (.vector (.literal 2))⟩,
    ⟨"Vector[List[uint8],4611686018427387904]", .sequence 1 (.vector (.literal 4611686018427387904))⟩,
    ⟨"Vector[List[uint8],4611686018427387905]", .sequence 1 (.vector (.literal 4611686018427387905))⟩]

theorem decode_truthful_short :
    let c : Codec := { catalog := { schema := endlessSchema } }
    let fault : DecodeError := .truncated "Vector[List[uint8],2]" 8 3
    ∃ f, c.catalog.format (endlessSchema.descriptor 2) = .ok f ∧ f.CountsFit ∧
      ((decode 2 [1, 2, 3]).run c).1 = .error (.decode fault) ∧
      (fault.Truthful ∨ f.Miscounts fault) := by
  intro c fault
  obtain ⟨f, resolved⟩ : ∃ f, c.catalog.format (endlessSchema.descriptor 2) = .ok f := ⟨_, rfl⟩
  obtain ⟨fit, truthful⟩ := decode_truthful .start resolved
  have failed : ((decode 2 [1, 2, 3]).run c).1 = .error (.decode fault) := by decide +kernel
  obtain ⟨_, same, shown⟩ := truthful [1, 2, 3] (.decode fault) failed
  cases same
  exact ⟨f, resolved, fit, failed, shown⟩

/-- Three bytes are more than a vector is said to need, and an offset differs from itself. -/
theorem decode_not_truthful :
    let c : Codec := { catalog := { schema := endlessSchema } }
    let short : DecodeError := .truncated "Vector[List[uint8],4611686018427387904]" 0 3
    let moved : DecodeError :=
      .malformedOffset "Vector[List[uint8],4611686018427387905]" 0 4 (.first 4)
    ((decode 3 [1, 2, 3]).run c).1 = .error (.decode short) ∧ ¬short.Truthful ∧
      ((decode 4 [4, 0, 0, 0]).run c).1 = .error (.decode moved) ∧ ¬moved.Truthful := by
  intro c short moved
  exact ⟨by decide +kernel, by simp [short, DecodeError.Truthful], by decide +kernel,
    by simp [moved, DecodeError.Truthful, OffsetFault.Holds]⟩

end Codec

end SimpleSerialize
