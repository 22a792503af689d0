/-
Trees that remember what they hashed.

A recorded computation gives its result together with the pairs of chunks that were handed to the
chunk hash for it.  The functions here follow those on trees step by step, with every application of
the hash recorded.  Main statements:

* `Hasher.result_climb`, `Hasher.result_merkleize`: recording does not change the result.
-/
import SimpleSerialize.Merkle.Tree

namespace SimpleSerialize

/-- A result, and the pairs of chunks that were hashed for it. -/
@[ext] structure Recorded (α : Type) where
  result : α
  pairs : List (Root × Root) := []

namespace Recorded

variable {α β : Type}

instance : Monad Recorded where
  pure a := ⟨a, []⟩
  bind x next := ⟨(next x.result).result, x.pairs ++ (next x.result).pairs⟩

instance : LawfulMonad Recorded :=
  LawfulMonad.mk' Recorded
    (fun x => Recorded.ext rfl (List.append_nil x.pairs))
    (fun _ _ => Recorded.ext rfl rfl)
    (fun x _ _ => Recorded.ext rfl (List.append_assoc x.pairs _ _))

@[simp] theorem result_pure (a : α) : (pure a : Recorded α).result = a := rfl

@[simp] theorem pairs_pure (a : α) : (pure a : Recorded α).pairs = [] := rfl

@[simp] theorem result_bind (x : Recorded α) (next : α → Recorded β) :
    (x >>= next).result = (next x.result).result := rfl

@[simp] theorem pairs_bind (x : Recorded α) (next : α → Recorded β) :
    (x >>= next).pairs = x.pairs ++ (next x.result).pairs := rfl

/-- The hash of two chunks, put on record. -/
def hashed (hash : ChunkHash) (left right : Root) : Recorded Root :=
  ⟨hash left right, [(left, right)]⟩

/-- Hashes chunks in pairs, with `zero` beside the last one if it is alone. -/
def layer (hash : ChunkHash) (zero : Root) : List Root → Recorded (List Root)
  | [] => pure []
  | [left] => do return [← hashed hash left zero]
  | left :: right :: rest => do
    let top ← hashed hash left right
    return top :: (← layer hash zero rest)

@[simp] theorem result_layer (hash : ChunkHash) (zero : Root) (roots : List Root) :
    (layer hash zero roots).result = SimpleSerialize.layer hash zero roots := by
  fun_induction SimpleSerialize.layer hash zero roots with
  | case1 => rfl
  | case2 left => rfl
  | case3 left right rest ih =>
    rw [layer]
    simp only [result_bind, result_pure, ih]
    rfl

/-- Climbs `depth` layers from a layer at height `height`. -/
def climb (h : Hasher) : (depth height : Nat) → List Root → Recorded (List Root)
  | 0, _, roots => pure roots
  | depth + 1, height, roots => do climb h depth (height + 1) (← layer h.pair (h.zero height) roots)

@[simp] theorem result_climb (h : Hasher) (depth height : Nat) (roots : List Root) :
    (climb h depth height roots).result = h.climb depth height roots := by
  induction depth generalizing height roots with
  | zero => rfl
  | succ depth ih =>
    rw [climb, result_bind, ih, result_layer]
    rfl

/-- The root of the tree over some chunks, with room for at least `limit` leaves. -/
def merkleize (h : Hasher) (chunks : List Root) (limit : Option Nat) : Recorded Root := do
  let depth := treeDepth (max (limit.getD 0) chunks.length)
  return (← climb h depth 0 chunks).headD (h.zero depth)

@[simp] theorem result_merkleize (h : Hasher) (chunks : List Root) (limit : Option Nat) :
    (merkleize h chunks limit).result = h.merkleize chunks limit := by
  rw [merkleize, result_bind, result_climb]
  rfl

/-- Commits the number of elements of a list into its root. -/
def mixInLength (h : Hasher) (root : Root) (length : Nat) : Recorded Root :=
  hashed h.pair root (numberChunk length)

/-- Commits the selector of a union into the root of its body. -/
def mixInSelector (h : Hasher) (root : Root) (selector : UInt32) : Recorded Root :=
  hashed h.pair root (numberChunk selector.toNat)

end Recorded

end SimpleSerialize
