/-
The trees that roots are the roots of.

A `MerkleTree` is a binary tree written out node by node, up to `2 ^ 64` leaves.  What is computed
instead goes up layer by layer, and takes the root of whatever lies beyond the last chunk from a
table.  Both end in the same root: to hash the lowest layer of a tree is to hash the layer of its
leaves, and the zero chunks at the end of one layer become the zero roots at the end of the next.
Main statements:

* `MerkleTree.Full.eq_of_leaves`: a full tree is determined by its leaves;
* `MerkleTree.root_collapse`, `MerkleTree.leaves_collapse`: one layer;
* `Hasher.climb_eq`: the layers above some chunks end in the root of the full tree over them;
* `Hasher.merkleize_eq_root`: so does the computation of a root, whatever room is asked for;
* `Hasher.merkleize_eq_root_full`: the tree is the least one with room for the chunks and the limit.
-/
import Mathlib.Logic.ExistsUnique
import Mathlib.Order.Bounds.Basic
import SimpleSerialize.Proofs.Merkle.Binding

namespace SimpleSerialize

/-- A binary tree of chunks. -/
inductive MerkleTree
  | leaf (chunk : Root)
  | node (left right : MerkleTree)

namespace MerkleTree

/-- The leaves, from left to right. -/
def leaves : MerkleTree → List Root
  | leaf chunk => [chunk]
  | node left right => left.leaves ++ right.leaves

/-- The hash of the two children, all the way up. -/
def root (hash : ChunkHash) : MerkleTree → Root
  | leaf chunk => chunk
  | node left right => hash (left.root hash) (right.root hash)

/-- The length of the longest way down. -/
def depth : MerkleTree → Nat
  | leaf _ => 0
  | node left right => max left.depth right.depth + 1

/-- Every way down has the same length. -/
inductive Full : Nat → MerkleTree → Prop
  | leaf (chunk : Root) : Full 0 (.leaf chunk)
  | node {depth : Nat} {left right : MerkleTree} :
    Full depth left → Full depth right → Full (depth + 1) (.node left right)

/-- The full tree of some depth over some chunks, with zero chunks after the last of them. -/
def ofChunks : (depth : Nat) → List Root → MerkleTree
  | 0, chunks => leaf (chunks.headD (.zero 32))
  | depth + 1, chunks =>
    node (ofChunks depth (chunks.take (2 ^ depth))) (ofChunks depth (chunks.drop (2 ^ depth)))

variable {hash : ChunkHash} {depth : Nat} {tree other : MerkleTree}

/-! ### Full trees -/

theorem Full.depth_eq (full : tree.Full depth) : tree.depth = depth := by
  induction full with
  | leaf chunk => rfl
  | node _ _ ihl ihr => rw [MerkleTree.depth, ihl, ihr, Nat.max_self]

theorem Full.length_leaves (full : tree.Full depth) : tree.leaves.length = 2 ^ depth := by
  induction full with
  | leaf chunk => rfl
  | node _ _ ihl ihr => rw [leaves, List.length_append, ihl, ihr, Nat.pow_succ, Nat.mul_two]

/-- A full tree is determined by its leaves. -/
theorem Full.eq_of_leaves (full : tree.Full depth) (full' : other.Full depth)
    (same : tree.leaves = other.leaves) : tree = other := by
  induction full generalizing other with
  | leaf chunk =>
    cases full' with
    | leaf chunk' => rw [List.singleton_inj.mp same]
  | @node depth left right hl hr ihl ihr =>
    cases full' with
    | @node _ left' right' hl' hr' =>
      have lengths : left.leaves.length = left'.leaves.length :=
        hl.length_leaves.trans hl'.length_leaves.symm
      obtain ⟨first, second⟩ := List.append_inj same lengths
      rw [ihl hl' first, ihr hr' second]

theorem full_ofChunks (depth : Nat) (chunks : List Root) : (ofChunks depth chunks).Full depth := by
  induction depth generalizing chunks with
  | zero => exact .leaf _
  | succ depth ih => exact .node (ih _) (ih _)

/-- The leaves are the chunks, filled up with zero chunks. -/
theorem leaves_ofChunks {chunks : List Root} (room : chunks.length ≤ 2 ^ depth) :
    (ofChunks depth chunks).leaves =
      chunks ++ List.replicate (2 ^ depth - chunks.length) (.zero 32) := by
  induction depth generalizing chunks with
  | zero =>
    obtain _ | ⟨chunk, _ | ⟨next, rest⟩⟩ := chunks
    · rfl
    · rfl
    · simp at room
  | succ depth ih =>
    rw [Nat.pow_succ] at room ⊢
    have left := @ih (chunks.take (2 ^ depth)) (by rw [List.length_take]; omega)
    have right := @ih (chunks.drop (2 ^ depth)) (by rw [List.length_drop]; omega)
    rw [ofChunks, leaves, left, right, List.length_take, List.length_drop]
    by_cases short : chunks.length ≤ 2 ^ depth
    · -- All chunks are in the left half, and the right one is filled up whole.
      rw [List.take_of_length_le short, List.drop_eq_nil_of_le short, Nat.min_eq_right short,
        Nat.sub_eq_zero_of_le short, List.nil_append, List.append_assoc,
        List.replicate_append_replicate]
      congr 2
      omega
    · rw [Nat.min_eq_left (by omega), Nat.sub_self, List.replicate_zero, List.append_nil,
        ← List.append_assoc, List.take_append_drop]
      congr 2
      omega

/-- A full tree of zero chunks has the zero root of its depth. -/
theorem Full.root_of_zeros {count : Nat} (full : tree.Full depth)
    (zeros : tree.leaves = List.replicate count (.zero 32)) :
    tree.root hash = zeroRoot hash depth := by
  replace zeros : ∀ chunk ∈ tree.leaves, chunk = .zero 32 :=
    fun chunk mem => List.eq_of_mem_replicate (zeros ▸ mem)
  induction full with
  | leaf chunk => exact zeros chunk List.mem_cons_self
  | node _ _ ihl ihr =>
    rw [root, zeroRoot, ihl fun chunk mem => zeros chunk (List.mem_append_left _ mem),
      ihr fun chunk mem => zeros chunk (List.mem_append_right _ mem)]

/-! ### One layer -/

/-- The same tree with its lowest layer hashed. -/
def collapse (hash : ChunkHash) : MerkleTree → MerkleTree
  | leaf chunk => leaf chunk
  | node (leaf left) (leaf right) => leaf (hash left right)
  | node left right => node (left.collapse hash) (right.collapse hash)

@[simp] theorem root_collapse (tree : MerkleTree) : (tree.collapse hash).root hash = tree.root hash := by
  fun_induction collapse hash tree with
  | case1 chunk => rfl
  | case2 left right => rfl
  | case3 left right _ ihl ihr => rw [root, root, ihl, ihr]

theorem collapse_node {left : MerkleTree} (full : left.Full (depth + 1)) (right : MerkleTree) :
    (node left right).collapse hash = node (left.collapse hash) (right.collapse hash) := by
  cases full
  rfl

theorem Full.collapse (full : tree.Full (depth + 1)) : (tree.collapse hash).Full depth := by
  induction depth generalizing tree with
  | zero =>
    obtain _ | ⟨hl, hr⟩ := full
    cases hl
    cases hr
    exact .leaf _
  | succ depth ih =>
    obtain _ | ⟨hl, hr⟩ := full
    rw [collapse_node hl]
    exact .node (ih hl) (ih hr)

end MerkleTree

variable {hash : ChunkHash} {zero : Root}

/-- An even number of chunks is hashed in pairs whatever follows. -/
theorem layer_append {first : List Root} (even : first.length % 2 = 0) (rest : List Root) :
    layer hash zero (first ++ rest) = layer hash zero first ++ layer hash zero rest := by
  fun_induction layer hash zero first with
  | case1 => rfl
  | case2 left => cases even
  | case3 left right below ih =>
    have even : below.length % 2 = 0 := by
      simp only [List.length_cons] at even
      omega
    rw [List.cons_append, List.cons_append, layer, ih even, List.cons_append]

/-- The leaves of a tree whose lowest layer is hashed are the layer above its leaves. -/
theorem MerkleTree.leaves_collapse {depth : Nat} {tree : MerkleTree} (full : tree.Full (depth + 1)) :
    (tree.collapse hash).leaves = layer hash zero tree.leaves := by
  induction depth generalizing tree with
  | zero =>
    obtain _ | ⟨hl, hr⟩ := full
    cases hl
    cases hr
    rfl
  | succ depth ih =>
    obtain _ | ⟨hl, hr⟩ := full
    have even := hl.length_leaves
    rw [Nat.pow_succ] at even
    rw [collapse_node hl, leaves, leaves, ih hl, ih hr, layer_append (by omega)]

theorem layer_replicate (count : Nat) (chunk : Root) :
    layer hash zero (List.replicate (2 * count) chunk) = List.replicate count (hash chunk chunk) := by
  induction count with
  | zero => rfl
  | succ count ih => rw [Nat.mul_succ, List.replicate_succ, List.replicate_succ, layer, ih,
      List.replicate_succ]

/-- Chunks filled up to an even number with the one that a layer completes pairs with are hashed to
their layer, filled up with the hash of that chunk with itself. -/
theorem layer_filled {chunks : List Root} {more : Nat} (even : (chunks.length + more) % 2 = 0) :
    layer hash zero (chunks ++ List.replicate more zero) =
      layer hash zero chunks ++ List.replicate (more / 2) (hash zero zero) := by
  fun_induction layer hash zero chunks with
  | case1 =>
    obtain ⟨half, rfl⟩ : ∃ half, more = 2 * half := ⟨more / 2, by simp at even; omega⟩
    rw [List.nil_append, layer_replicate, Nat.mul_div_cancel_left _ Nat.two_pos, List.nil_append]
  | case2 left =>
    -- The chunk that is left over is paired with the first of those that fill up.
    obtain ⟨half, rfl⟩ : ∃ half, more = 2 * half + 1 := by
      refine ⟨more / 2, ?_⟩
      simp only [List.length_cons, List.length_nil] at even
      omega
    have halved : (2 * half + 1) / 2 = half := by omega
    rw [List.replicate_succ, List.singleton_append, layer, layer_replicate, halved,
      List.singleton_append]
  | case3 left right below ih =>
    have even : (below.length + more) % 2 = 0 := by
      simp only [List.length_cons] at even
      omega
    rw [List.cons_append, List.cons_append, layer, ih even, List.cons_append]

theorem layer_eq_nil_iff {chunks : List Root} : layer hash zero chunks = [] ↔ chunks = [] := by
  fun_cases layer hash zero chunks <;> simp

/-! ### All layers -/

theorem isLeast_treeDepth (leaves : Nat) : IsLeast {depth | leaves ≤ 2 ^ depth} (treeDepth leaves) :=
  ⟨le_two_pow_treeDepth leaves, fun _ room => treeDepth_le room⟩

namespace Hasher

variable {h : Hasher} {depth height : Nat} {chunks : List Root} {tree : MerkleTree}

theorem climb_nil : h.climb depth height [] = [] := by
  induction depth generalizing height with
  | zero => rfl
  | succ depth ih => exact ih

/-- The layers above some chunks of one height end in the root of the full tree over them and zero
roots of that height. -/
theorem climb_eq {more : Nat} (full : tree.Full depth) (some : chunks ≠ [])
    (leaves : tree.leaves = chunks ++ List.replicate more (zeroRoot h.pair height))
    (low : height + depth ≤ maxDepth) : h.climb depth height chunks = [tree.root h.pair] := by
  induction depth generalizing height chunks tree more with
  | zero =>
    obtain ⟨chunk⟩ := full
    obtain ⟨first, rest, rfl⟩ := List.exists_cons_of_ne_nil some
    -- The one leaf is the one chunk.
    obtain ⟨rfl, none⟩ := List.cons_eq_cons.mp leaves
    rw [(List.append_eq_nil_iff.mp none.symm).1]
    rfl
  | succ depth ih =>
    have even : (chunks.length + more) % 2 = 0 := by
      have length := full.length_leaves
      rw [leaves, List.length_append, List.length_replicate, Nat.pow_succ] at length
      omega
    have entry : h.zero height = zeroRoot h.pair height := h.zero_eq (by omega)
    have above : (tree.collapse h.pair).leaves = layer h.pair (h.zero height) chunks ++
        List.replicate (more / 2) (zeroRoot h.pair (height + 1)) := by
      rw [MerkleTree.leaves_collapse full, leaves, ← entry, layer_filled even, entry]
      rfl
    rw [climb, ih full.collapse (layer_eq_nil_iff.not.mpr some) above (by omega),
      MerkleTree.root_collapse]

/-- The root of some chunks is the root of the full tree over them. -/
theorem merkleize_eq_root {limit : Option Nat} {more : Nat}
    (full : tree.Full (treeDepth (max (limit.getD 0) chunks.length)))
    (leaves : tree.leaves = chunks ++ List.replicate more (.zero 32))
    (low : treeDepth (max (limit.getD 0) chunks.length) ≤ maxDepth) :
    h.merkleize chunks limit = tree.root h.pair := by
  rw [merkleize]
  by_cases none : chunks = []
  · -- Without chunks there are zero chunks only, and the root is taken from the table.
    rw [none, List.nil_append] at leaves
    rw [full.root_of_zeros leaves, ← h.zero_eq low, none, climb_nil]
    rfl
  · rw [climb_eq full none leaves (by omega)]
    rfl

/-- There is such a tree, whose depth is the least one with the room that is asked for. -/
theorem exists_full_tree (h : Hasher) (limit : Option Nat)
    (exact : treeDepth (max (limit.getD 0) chunks.length) = depth) (low : depth ≤ maxDepth) :
    ∃ tree : MerkleTree, tree.Full depth ∧
      tree.leaves = chunks ++ List.replicate (2 ^ depth - chunks.length) (.zero 32) ∧
      h.merkleize chunks limit = tree.root h.pair := by
  subst exact
  have room : chunks.length ≤ 2 ^ treeDepth (max (limit.getD 0) chunks.length) :=
    Nat.le_trans (Nat.le_max_right _ _) (le_two_pow_treeDepth _)
  have full := MerkleTree.full_ofChunks (treeDepth (max (limit.getD 0) chunks.length)) chunks
  have leaves := MerkleTree.leaves_ofChunks room
  exact ⟨_, full, leaves, merkleize_eq_root full leaves low⟩

/-- The root of some chunks, with room for as many as a limit says, is the root of a full tree of the
least depth with this room: its leaves are the chunks followed by zero chunks, and each other node is
the hash of its children. -/
theorem merkleize_eq_root_full (h : Hasher) (chunks : List Root) (limit : Option UInt64)
    (counted : chunks.length < 2 ^ 64) :
    let room := max chunks.length ((limit.map (·.toNat)).getD 0)
    ∃ depth, IsLeast {d | room ≤ 2 ^ d} depth ∧ (room ≤ 1 → depth = 0) ∧
      (∀ l ∈ limit, 2 ^ 63 < l.toNat → depth = 64) ∧
      let leaves := chunks ++ List.replicate (2 ^ depth - chunks.length) (.zero 32)
      (∃! tree : MerkleTree, tree.Full depth ∧ tree.leaves = leaves) ∧
        ∀ tree : MerkleTree, tree.Full depth → tree.leaves = leaves →
          h.merkleize chunks (limit.map (·.toNat)) = tree.root h.pair := by
  intro room
  have small : room ≤ 2 ^ 64 := by
    refine Nat.max_le.mpr ⟨Nat.le_of_lt counted, ?_⟩
    cases limit with
    | none => exact Nat.zero_le _
    | some l => exact Nat.le_of_lt l.toNat_lt
  have least := isLeast_treeDepth room
  refine ⟨treeDepth room, least, fun one => ?_, fun l known large => ?_, ?_⟩
  · exact Nat.le_zero.mp (treeDepth_le one)
  · -- More than half of the greatest tree is asked for.
    cases known
    refine Nat.le_antisymm (treeDepth_le small) (Nat.le_of_not_lt fun less => ?_)
    have enough : 2 ^ treeDepth room ≤ 2 ^ 63 := Nat.pow_le_pow_right Nat.two_pos (by omega)
    have asked : l.toNat ≤ room := Nat.le_max_right _ _
    exact absurd (Nat.le_trans asked (Nat.le_trans least.1 enough)) (by omega)
  · intro leaves
    have depth : treeDepth (max ((limit.map (·.toNat)).getD 0) chunks.length) = treeDepth room := by
      rw [Nat.max_comm]
    obtain ⟨tree, full, same, root⟩ := h.exists_full_tree _ depth (treeDepth_le small)
    have unique (other : MerkleTree) (full' : other.Full (treeDepth room))
        (same' : other.leaves = leaves) : other = tree := full'.eq_of_leaves full (same'.trans same.symm)
    refine ⟨⟨tree, ⟨full, same⟩, fun other h => unique other h.1 h.2⟩, fun other full' same' => ?_⟩
    rw [unique other full' same', root]

/-- Three chunks with room for five. -/
theorem merkleize_eq_root_full_three :
    let h : Hasher := { pair := fun l r => .padded 32 (l.bytes.take 4 ++ r.bytes.take 4) }
    let chunk (b : UInt8) : Root := .padded 32 [b]
    let pair (l r : Root) : MerkleTree := .node (.leaf l) (.leaf r)
    let zeros : MerkleTree := pair (.zero 32) (.zero 32)
    [chunk 1, chunk 2, chunk 3].length < 2 ^ 64 ∧
      h.merkleize [chunk 1, chunk 2, chunk 3] (some 5) = MerkleTree.root h.pair
        (.node (.node (pair (chunk 1) (chunk 2)) (pair (chunk 3) (.zero 32))) (.node zeros zeros)) := by
  intro h chunk pair zeros
  have counted : [chunk 1, chunk 2, chunk 3].length < 2 ^ 64 := by decide
  obtain ⟨depth, least, -, -, -, root⟩ :=
    merkleize_eq_root_full h [chunk 1, chunk 2, chunk 3] (some 5) counted
  obtain rfl : depth = 3 := least.unique (isLeast_treeDepth 5)
  have couple (l r : Root) : (pair l r).Full 1 := .node (.leaf l) (.leaf r)
  have both (l l' r r' : Root) : (MerkleTree.node (pair l l') (pair r r')).Full 2 :=
    .node (couple l l') (couple r r')
  exact ⟨counted, root _ (.node (both _ _ _ _) (both _ _ _ _)) rfl⟩

end Hasher

end SimpleSerialize
