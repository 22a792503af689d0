/-
Trees bind their leaves.

Two trees over equally many chunks that have the same root have the same chunks, unless two
different pairs that were hashed for them have the same hash.  Nothing is asked of the hash.  Main
statements:

* `le_two_pow_treeDepth`, `treeDepth_le`: the depth is the least one with room for the leaves;
* `Recorded.merkleize_injective`: without such pairs, a root determines its chunks;
* `pack_injective`: the chunks of a byte string of known length determine it;
* `numberChunk_injective`: the chunk of a 64-bit number determines it.
-/
import Mathlib.Algebra.GroupWithZero.Nat
import Mathlib.Tactic.ByContra
import SimpleSerialize.Proofs.Merkle.Recorded

namespace SimpleSerialize

/-- Two different pairs of chunks have the same hash. -/
def Collision (hash : ChunkHash) (pairs : List (Root × Root)) : Prop :=
  ∃ p ∈ pairs, ∃ q ∈ pairs, p ≠ q ∧ hash p.1 p.2 = hash q.1 q.2

/-- No two different pairs of chunks have the same hash. -/
def Clean (hash : ChunkHash) (pairs : List (Root × Root)) : Prop :=
  ∀ p ∈ pairs, ∀ q ∈ pairs, hash p.1 p.2 = hash q.1 q.2 → p = q

theorem le_two_pow_treeDepth (leaves : Nat) : leaves ≤ 2 ^ treeDepth leaves := by
  unfold treeDepth
  split
  · simpa
  · have := Nat.lt_log2_self (n := leaves - 1)
    omega

theorem treeDepth_le {leaves depth : Nat} (h : leaves ≤ 2 ^ depth) : treeDepth leaves ≤ depth := by
  unfold treeDepth
  split
  · exact Nat.zero_le _
  · rw [Nat.succ_le_iff, Nat.log2_lt (by omega)]
    omega

variable {hash : ChunkHash} {zero : Root}

theorem collision_of_not_clean {pairs : List (Root × Root)} (h : ¬ Clean hash pairs) :
    Collision hash pairs := by
  by_contra none
  refine h fun p hp q hq same => ?_
  by_contra different
  exact none ⟨p, hp, q, hq, different, same⟩

theorem Clean.mono {small large : List (Root × Root)} (clean : Clean hash large)
    (sub : small ⊆ large) : Clean hash small := by
  intro p hp q hq
  exact clean p (sub hp) q (sub hq)

/-- Two records in two steps each are clean in their first steps, -/
theorem Clean.first {ps qs ps' qs' : List (Root × Root)}
    (clean : Clean hash ((ps ++ qs) ++ (ps' ++ qs'))) : Clean hash (ps ++ ps') := by
  refine clean.mono fun p hp => ?_
  rcases List.mem_append.mp hp with hp | hp
  · exact List.mem_append_left _ (List.mem_append_left _ hp)
  · exact List.mem_append_right _ (List.mem_append_left _ hp)

/-- and in their second steps. -/
theorem Clean.second {ps qs ps' qs' : List (Root × Root)}
    (clean : Clean hash ((ps ++ qs) ++ (ps' ++ qs'))) : Clean hash (qs ++ qs') := by
  refine clean.mono fun p hp => ?_
  rcases List.mem_append.mp hp with hp | hp
  · exact List.mem_append_left _ (List.mem_append_right _ hp)
  · exact List.mem_append_right _ (List.mem_append_right _ hp)

/-- Pairs that were hashed to the same chunks are the same pairs. -/
theorem Clean.eq_of_map {ps qs : List (Root × Root)} (clean : Clean hash (ps ++ qs))
    (same : ps.map (fun p => hash p.1 p.2) = qs.map fun q => hash q.1 q.2) : ps = qs := by
  induction ps generalizing qs with
  | nil => exact (List.map_eq_nil_iff.mp same.symm).symm
  | cons p ps ih =>
    cases qs with
    | nil => cases same
    | cons q qs =>
      obtain ⟨first, rest⟩ := List.cons_eq_cons.mp same
      have mem : q ∈ p :: ps ++ q :: qs := List.mem_append_right _ List.mem_cons_self
      have below : Clean hash (ps ++ qs) := @Clean.second _ [p] ps [q] qs clean
      rw [clean p List.mem_cons_self q mem first, ih below rest]

namespace Recorded

/-! ### One layer -/

/-- The pairs of one layer. -/
def pairUp (zero : Root) : List Root → List (Root × Root)
  | [] => []
  | [left] => [(left, zero)]
  | left :: right :: rest => (left, right) :: pairUp zero rest

theorem pairs_layer (roots : List Root) : (layer hash zero roots).pairs = pairUp zero roots := by
  fun_induction pairUp zero roots with
  | case1 => rfl
  | case2 left => rfl
  | case3 left right rest ih =>
    rw [layer, pairs_bind, pairs_bind, ih, pairs_pure, List.append_nil]
    rfl

theorem layer_eq_map (roots : List Root) :
    SimpleSerialize.layer hash zero roots = (pairUp zero roots).map fun p => hash p.1 p.2 := by
  fun_induction pairUp zero roots with
  | case1 => rfl
  | case2 left => rfl
  | case3 left right rest ih => rw [SimpleSerialize.layer, ih, List.map_cons]

theorem length_pairUp (roots : List Root) :
    (pairUp zero roots).length = (roots.length + 1) / 2 := by
  fun_induction pairUp zero roots with
  | case1 => rfl
  | case2 left => simp
  | case3 left right rest ih =>
    simp only [List.length_cons, ih]
    omega

theorem length_layer (roots : List Root) :
    (SimpleSerialize.layer hash zero roots).length = (roots.length + 1) / 2 := by
  rw [layer_eq_map, List.length_map, length_pairUp]

theorem pairUp_injective {ls rs : List Root} (length : ls.length = rs.length)
    (same : pairUp zero ls = pairUp zero rs) : ls = rs := by
  fun_induction pairUp zero ls generalizing rs with
  | case1 => exact (List.eq_nil_of_length_eq_zero length.symm).symm
  | case2 left =>
    obtain ⟨right, rfl⟩ := List.length_eq_one_iff.mp length.symm
    cases same
    rfl
  | case3 left right rest ih =>
    obtain _ | ⟨left', _ | ⟨right', rest'⟩⟩ := rs
    · cases length
    · cases length
    · obtain ⟨first, others⟩ := List.cons_eq_cons.mp same
      cases first
      rw [ih (Nat.succ.inj (Nat.succ.inj length)) others]

/-! ### Trees -/

variable {h : Hasher}

theorem length_climb_eq {depth height : Nat} {ls rs : List Root} (length : ls.length = rs.length) :
    (h.climb depth height ls).length = (h.climb depth height rs).length := by
  induction depth generalizing height ls rs with
  | zero => exact length
  | succ depth ih =>
    refine ih ?_
    rw [length_layer, length_layer, length]

/-- A tree that has room for its leaves ends in one root, or in none if it has no leaves. -/
theorem length_climb_le {depth height : Nat} {roots : List Root} (room : roots.length ≤ 2 ^ depth) :
    (h.climb depth height roots).length ≤ 1 := by
  induction depth generalizing height roots with
  | zero => exact room
  | succ depth ih =>
    refine ih ?_
    rw [Nat.pow_succ] at room
    rw [length_layer]
    omega

theorem climb_injective {depth height : Nat} {ls rs : List Root} (length : ls.length = rs.length)
    (clean : Clean h.pair ((climb h depth height ls).pairs ++ (climb h depth height rs).pairs))
    (same : h.climb depth height ls = h.climb depth height rs) : ls = rs := by
  induction depth generalizing height ls rs with
  | zero => exact same
  | succ depth ih =>
    -- The pairs of the lowest layer come first, those above it follow.
    have split (roots : List Root) : (climb h (depth + 1) height roots).pairs =
        pairUp (h.zero height) roots ++
          (climb h depth (height + 1) (SimpleSerialize.layer h.pair (h.zero height) roots)).pairs := by
      rw [climb, pairs_bind, pairs_layer, result_layer]
    rw [split, split] at clean
    have above := ih (by rw [length_layer, length_layer, length]) clean.second same
    rw [layer_eq_map, layer_eq_map] at above
    exact pairUp_injective length (clean.first.eq_of_map above)

/-- Without different pairs of the same hash, a root determines its chunks, if their number is
known. -/
theorem merkleize_injective {ls rs : List Root} {limit : Option Nat}
    (length : ls.length = rs.length)
    (clean : Clean h.pair ((merkleize h ls limit).pairs ++ (merkleize h rs limit).pairs))
    (same : h.merkleize ls limit = h.merkleize rs limit) : ls = rs := by
  have pairs (roots : List Root) : (merkleize h roots limit).pairs =
      (climb h (treeDepth (max (limit.getD 0) roots.length)) 0 roots).pairs := by
    rw [merkleize, pairs_bind, pairs_pure, List.append_nil]
  rw [pairs, pairs, ← length] at clean
  rw [Hasher.merkleize, Hasher.merkleize, ← length] at same
  have room : ls.length ≤ 2 ^ treeDepth (max (limit.getD 0) ls.length) :=
    Nat.le_trans (Nat.le_max_right _ _) (le_two_pow_treeDepth _)
  have left := @length_climb_le h _ 0 _ room
  have equal := @length_climb_eq h (treeDepth (max (limit.getD 0) ls.length)) 0 _ _ length
  refine climb_injective length clean ?_
  -- Both trees end in one root or in none, so that it is enough to compare the first.
  generalize h.climb _ 0 ls = top at same left equal ⊢
  generalize h.climb _ 0 rs = top' at same equal ⊢
  obtain _ | ⟨root, _ | ⟨other, rest⟩⟩ := top
  · exact (List.eq_nil_of_length_eq_zero equal.symm).symm
  · obtain ⟨root', rfl⟩ := List.length_eq_one_iff.mp equal.symm
    exact congrArg (fun r => [r]) same
  · simp at left

end Recorded

/-! ### Chunks -/

theorem bytes_padded {n : Nat} {bs : Bytes} (short : bs.length ≤ n) :
    (FixedBytes.padded n bs).bytes = bs ++ List.replicate (n - bs.length) 0 := by
  show (bs ++ List.replicate (n - bs.length) 0).take n = _
  refine List.take_of_length_le ?_
  rw [List.length_append, List.length_replicate]
  omega

/-- The chunks of a byte string start with it. -/
theorem prefix_pieces {count : Nat} {bytes : Bytes} (room : bytes.length ≤ chunkSize * count) :
    bytes <+: ((chunks chunkSize count bytes).map fun piece =>
      (FixedBytes.padded 32 piece).bytes).flatten := by
  induction count generalizing bytes with
  | zero =>
    obtain rfl := List.eq_nil_of_length_eq_zero (Nat.le_zero.mp room)
    exact List.nil_prefix
  | succ count ih =>
    have size : chunkSize = 32 := rfl
    rw [Nat.mul_succ] at room
    have rest := @ih (bytes.drop chunkSize) (by rw [List.length_drop]; omega)
    rw [chunks, List.map_cons, List.flatten_cons, bytes_padded (by rw [List.length_take]; omega)]
    by_cases full : chunkSize ≤ bytes.length
    · -- The first piece is a whole chunk, and nothing is filled up.
      rw [List.length_take, Nat.min_eq_left full, size, Nat.sub_self, List.replicate_zero,
        List.append_nil]
      conv_lhs => rw [← List.take_append_drop 32 bytes]
      exact (List.prefix_append_right_inj _).mpr rest
    · -- The first piece is all there is, and the zeros come after it.
      rw [List.take_of_length_le (by omega), List.append_assoc]
      exact List.prefix_append _ _

@[simp] theorem length_pack (bytes : Bytes) :
    (pack bytes).length = (bytes.length + chunkSize - 1) / chunkSize := by
  rw [pack, List.length_map, length_chunks]

/-- The chunks of a byte string of known length determine it. -/
theorem pack_injective {bs cs : Bytes} (length : bs.length = cs.length)
    (same : pack bs = pack cs) : bs = cs := by
  have joined := congrArg (fun chunks : List Root => (chunks.map (·.bytes)).flatten) same
  have room : bs.length ≤ chunkSize * ((bs.length + chunkSize - 1) / chunkSize) := by
    have size : chunkSize = 32 := rfl
    rw [size]
    omega
  -- Both are prefixes of the same bytes.
  have left := prefix_pieces room
  have right : cs <+: _ := prefix_pieces (length ▸ room)
  rw [pack, pack, List.map_map, List.map_map, ← length] at joined
  rw [← length] at right
  have right : cs <+: ((chunks chunkSize ((bs.length + chunkSize - 1) / chunkSize) bs).map
      fun piece => (FixedBytes.padded 32 piece).bytes).flatten := joined ▸ right
  exact (List.prefix_of_prefix_length_le left right (Nat.le_of_eq length)).eq_of_length length

/-- Without different pairs of the same hash, the root of the chunks of a byte string determines it,
if its length is known. -/
theorem Recorded.merkleize_pack_injective {h : Hasher} {bs cs : Bytes} {limit : Option Nat}
    (length : bs.length = cs.length)
    (clean : Clean h.pair ((merkleize h (pack bs) limit).pairs ++
      (merkleize h (pack cs) limit).pairs))
    (same : h.merkleize (pack bs) limit = h.merkleize (pack cs) limit) : bs = cs := by
  have counts : (pack bs).length = (pack cs).length := by
    rw [length_pack, length_pack, length]
  exact pack_injective length (merkleize_injective counts clean same)

/-- The chunk of a 64-bit number determines it. -/
theorem numberChunk_injective {m n : Nat} (hm : m < 2 ^ 64) (hn : n < 2 ^ 64)
    (same : numberChunk m = numberChunk n) : m = n := by
  have bytes := congrArg FixedBytes.bytes same
  rw [numberChunk, numberChunk, bytes_padded (by simp), bytes_padded (by simp)] at bytes
  have digits := (List.append_inj bytes (by simp)).1
  calc m = LittleEndian.decode (LittleEndian.encode 8 m) := (LittleEndian.decode_encode hm).symm
    _ = LittleEndian.decode (LittleEndian.encode 8 n) := by rw [digits]
    _ = n := LittleEndian.decode_encode hn

end SimpleSerialize
