/-
Merkle trees over 32-byte chunks.

The tree over some chunks is the full binary tree whose leaves are the chunks, followed by zero
chunks up to a power of two.  Subtrees of zero chunks only are not hashed again: their roots come
from a table, one for each depth.  The hash of two chunks is a parameter throughout.  Main
statements:

* `Hasher.zero_eq`: an entry of the table is the root of the tree of zero chunks of that depth.
-/
import SimpleSerialize.Bytes.Chunks
import SimpleSerialize.FixedBytes

namespace SimpleSerialize

/-- The hash of two chunks. -/
abbrev ChunkHash := Root → Root → Root

/-- The bytes of a chunk. -/
def chunkSize : Nat := 32

/-- The greatest depth of a tree whose leaves are counted by a 64-bit word. -/
def maxDepth : Nat := 64

/-- The root of the tree of zero chunks of some depth. -/
def zeroRoot (hash : ChunkHash) : (depth : Nat) → Root
  | 0 => .zero 32
  | depth + 1 =>
    let below := zeroRoot hash depth
    hash below below

/-- A root, and the roots of the trees over copies of it for `more` depths above. -/
def doublings (hash : ChunkHash) : (more : Nat) → Root → List Root
  | 0, root => [root]
  | more + 1, root => root :: doublings hash more (hash root root)

/-- The roots of the trees of zero chunks, by depth. -/
def zeroRoots (hash : ChunkHash) : List Root := doublings hash maxDepth (.zero 32)

/-- A hash of chunks together with its table of zero roots. -/
structure Hasher where
  pair : ChunkHash
  zeros : List Root := zeroRoots pair
  zeros_eq : zeros = zeroRoots pair := by rfl

/-- The depth of the smallest full binary tree with at least `leaves` leaves. -/
def treeDepth (leaves : Nat) : Nat := if leaves ≤ 1 then 0 else (leaves - 1).log2 + 1

/-- Splits bytes into chunks, the last one filled up with zeros. -/
def pack (bytes : Bytes) : List Root :=
  (chunks chunkSize ((bytes.length + chunkSize - 1) / chunkSize) bytes).map (FixedBytes.padded 32)

/-- The chunk of a number. -/
def numberChunk (n : Nat) : Root := .padded 32 (LittleEndian.encode 8 n)

/-- Hashes chunks in pairs, with `zero` beside the last one if it is alone. -/
def layer (hash : ChunkHash) (zero : Root) : List Root → List Root
  | [] => []
  | [left] => [hash left zero]
  | left :: right :: rest => hash left right :: layer hash zero rest

namespace Hasher

/-- The root of a tree of zero chunks. -/
def zero (h : Hasher) (depth : Nat) : Root := h.zeros.getD (min depth maxDepth) (.zero 32)

/-- Climbs `depth` layers from a layer at height `height`. -/
def climb (h : Hasher) : (depth height : Nat) → List Root → List Root
  | 0, _, roots => roots
  | depth + 1, height, roots => h.climb depth (height + 1) (layer h.pair (h.zero height) roots)

/-- The root of the tree over some chunks, with room for at least `limit` leaves. -/
def merkleize (h : Hasher) (chunks : List Root) (limit : Option Nat) : Root :=
  let depth := treeDepth (max (limit.getD 0) chunks.length)
  (h.climb depth 0 chunks).headD (h.zero depth)

/-- Commits the number of elements of a list into its root. -/
def mixInLength (h : Hasher) (root : Root) (length : Nat) : Root :=
  h.pair root (numberChunk length)

/-- Commits the selector of a union into the root of its body. -/
def mixInSelector (h : Hasher) (root : Root) (selector : UInt32) : Root :=
  h.pair root (numberChunk selector.toNat)

/-- The table of zero roots by its greatest depth. -/
def debug (h : Hasher) : String := s!"ZeroHashes(depth {h.zeros.length - 1})"

end Hasher

@[simp] theorem length_doublings (hash : ChunkHash) (more : Nat) (root : Root) :
    (doublings hash more root).length = more + 1 := by
  induction more generalizing root with
  | zero => rfl
  | succ more ih => simp [doublings, ih]

theorem getElem?_doublings (hash : ChunkHash) {more depth : Nat} (height : Nat) (h : depth ≤ more) :
    (doublings hash more (zeroRoot hash height))[depth]? =
      some (zeroRoot hash (height + depth)) := by
  induction more generalizing depth height with
  | zero =>
    obtain rfl : depth = 0 := by omega
    rfl
  | succ more ih =>
    cases depth with
    | zero => rfl
    | succ depth =>
      have := @ih depth (height + 1) (by omega)
      rw [doublings, List.getElem?_cons_succ]
      rw [zeroRoot] at this
      rw [this, Nat.add_right_comm, Nat.add_assoc]

/-- An entry of the table is the root of the tree of zero chunks of that depth. -/
theorem Hasher.zero_eq (h : Hasher) {depth : Nat} (hd : depth ≤ maxDepth) :
    h.zero depth = zeroRoot h.pair depth := by
  have entry := getElem?_doublings h.pair 0 hd
  rw [Hasher.zero, h.zeros_eq, Nat.min_eq_left hd, List.getD_eq_getElem?_getD, zeroRoots]
  rw [zeroRoot] at entry
  rw [entry, Nat.zero_add, Option.getD_some]

end SimpleSerialize
