/-
Cutting a byte string, or any list, into pieces of one width.

Main statements:

* `flatten_chunks`: the pieces joined again are the list they were cut from;
* `chunks_flatten`: pieces of one width that were joined are cut apart again.
-/
import SimpleSerialize.Bytes.LittleEndian

namespace SimpleSerialize

/-- The first `count` pieces of `width` items. -/
def chunks {α : Type} (width : Nat) : (count : Nat) → List α → List (List α)
  | 0, _ => []
  | count + 1, xs => xs.take width :: chunks width count (xs.drop width)

@[simp] theorem length_chunks {α : Type} (width count : Nat) (xs : List α) :
    (chunks width count xs).length = count := by
  induction count generalizing xs with
  | zero => rfl
  | succ count ih => simp [chunks, ih]

/-- The pieces joined again are the list they were cut from. -/
theorem flatten_chunks {α : Type} {width count : Nat} {xs : List α}
    (h : xs.length ≤ width * count) : (chunks width count xs).flatten = xs := by
  induction count generalizing xs with
  | zero => simp_all [chunks]
  | succ count ih =>
    have rest : (xs.drop width).length ≤ width * count := by
      rw [List.length_drop]
      rw [Nat.mul_succ] at h
      omega
    rw [chunks, List.flatten_cons, ih rest, List.take_append_drop]

/-- Pieces of one width that were joined are cut apart again. -/
theorem chunks_flatten {α : Type} {width : Nat} {pieces : List (List α)}
    (h : ∀ piece ∈ pieces, piece.length = width) :
    chunks width pieces.length pieces.flatten = pieces := by
  induction pieces with
  | nil => rfl
  | cons piece pieces ih =>
    have head : piece.length = width := h piece List.mem_cons_self
    have tail := ih fun p hp => h p (List.mem_cons_of_mem _ hp)
    rw [List.flatten_cons, List.length_cons, chunks, List.take_left' head, List.drop_left' head,
      tail]

/-- If the pieces fill the list up, none of them is shorter than the width. -/
theorem length_of_mem_chunks {α : Type} {width count : Nat} {xs piece : List α}
    (h : xs.length = width * count) (mem : piece ∈ chunks width count xs) :
    piece.length = width := by
  induction count generalizing xs with
  | zero => cases mem
  | succ count ih =>
    rw [Nat.mul_succ] at h
    rcases List.mem_cons.mp mem with rfl | mem
    · rw [List.length_take]
      omega
    · refine ih ?_ mem
      rw [List.length_drop]
      omega

end SimpleSerialize
