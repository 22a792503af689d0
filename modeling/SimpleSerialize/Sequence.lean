/-
Sequences whose number of elements is bounded by their type.

An `Exactly α n` has `n` elements and an `UpTo α n` at most `n`.  Both are made from a list of any
length, which is refused if the bound forbids it, and every operation keeps the bound.
-/
import SimpleSerialize.Bound

namespace SimpleSerialize

/-- Sequences of exactly `n` elements. -/
structure Exactly (α : Type) (n : Nat) where
  items : List α
  length_eq : items.length = n

/-- Sequences of at most `n` elements. -/
structure UpTo (α : Type) (n : Nat) where
  items : List α
  length_le : items.length ≤ n

namespace Exactly

variable {α : Type} {n : Nat}

@[ext] theorem ext {xs ys : Exactly α n} (h : xs.items = ys.items) : xs = ys := by
  cases xs
  cases ys
  simp_all

/-- The sequence of some elements, if they are as many as asked for. -/
def ofList? (n : Nat) (items : List α) : Except LengthError (Exactly α n) :=
  if h : items.length = n then .ok ⟨items, h⟩ else .error (.wrongLength n items.length)

/-- One element over and over. -/
def replicate (n : Nat) (a : α) : Exactly α n := ⟨List.replicate n a, List.length_replicate⟩

def get? (xs : Exactly α n) (i : Nat) : Option α := xs.items[i]?

/-- Replaces the element at a place, if there is one. -/
def set (xs : Exactly α n) (i : Nat) (a : α) : Exactly α n :=
  ⟨xs.items.set i a, by rw [List.length_set, xs.length_eq]⟩

/-- The elements in ascending order. -/
def sort (xs : Exactly α n) (le : α → α → Bool) : Exactly α n :=
  ⟨xs.items.mergeSort le, by rw [List.length_mergeSort, xs.length_eq]⟩

@[simp] theorem ofList?_items (xs : Exactly α n) : ofList? n xs.items = .ok xs := by
  simp [ofList?, xs.length_eq]

theorem ofList?_eq_error {items : List α} (h : items.length ≠ n) :
    ofList? n items = .error (.wrongLength n items.length) := by
  simp [ofList?, h]

end Exactly

namespace UpTo

variable {α : Type} {n : Nat}

@[ext] theorem ext {xs ys : UpTo α n} (h : xs.items = ys.items) : xs = ys := by
  cases xs
  cases ys
  simp_all

/-- The sequence without elements. -/
def empty : UpTo α n := ⟨[], Nat.zero_le n⟩

/-- The sequence of some elements, if they are not too many. -/
def ofList? (n : Nat) (items : List α) : Except LengthError (UpTo α n) :=
  if h : items.length ≤ n then .ok ⟨items, h⟩ else .error (.tooLong n items.length)

def get? (xs : UpTo α n) (i : Nat) : Option α := xs.items[i]?

/-- Whether there is no room for one more element. -/
def isFull (xs : UpTo α n) : Bool := n ≤ xs.items.length

/-- Adds an element at the end of the sequence held, if there is room for it. -/
def push (a : α) : ExceptT LengthError (StateM (UpTo α n)) Unit := do
  let xs ← get
  if h : xs.items.length < n then
    set (⟨xs.items ++ [a], by rw [List.length_append]; exact h⟩ : UpTo α n)
  else throw (.tooLong n (n + 1))

/-- Takes the last element away. -/
def pop (xs : UpTo α n) : Option α × UpTo α n :=
  (xs.items.getLast?, ⟨xs.items.dropLast, by
    rw [List.length_dropLast]
    exact Nat.le_trans (Nat.sub_le _ _) xs.length_le⟩)

@[simp] theorem ofList?_items (xs : UpTo α n) : ofList? n xs.items = .ok xs := by
  simp [ofList?, xs.length_le]

/-- An element that is refused leaves the sequence as it was. -/
theorem run_push (xs : UpTo α n) (a : α) : (push a).run xs =
    if h : xs.items.length < n then
      (.ok (), ⟨xs.items ++ [a], by rw [List.length_append]; exact h⟩)
    else (.error (.tooLong n (n + 1)), xs) := by
  have opened : (push a).run xs = ExceptT.run (m := StateM (UpTo α n))
      (if h : xs.items.length < n then
        set (⟨xs.items ++ [a], by rw [List.length_append]; exact h⟩ : UpTo α n)
      else throw (.tooLong n (n + 1))) xs := rfl
  rw [opened]
  split <;> rfl

/-- What was added last is taken away first. -/
theorem pop_of_push {xs ys : UpTo α n} {a : α} (h : (push a).run xs = (.ok (), ys)) :
    ys.pop = (some a, xs) := by
  rw [run_push] at h
  split at h
  · cases h
    simp [pop]
  · cases h

end UpTo

end SimpleSerialize
