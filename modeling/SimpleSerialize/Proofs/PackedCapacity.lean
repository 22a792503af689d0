/-
The room of lists whose elements share chunks.

The elements of such a list are packed, so that a list of at most `n` elements of `w` bytes needs
`n * w / 32` chunks, rounded up.  The room of its tree is counted in 64-bit words which stop at their
greatest value, and that before they are divided: no list is given room for more than `2 ^ 59` chunks,
and above that all maxima look the same.  Main statements:

* `Format.chunkLimit_eq`: the room that is counted is the exact one, up to `2 ^ 59 - 1` chunks;
* `treeDepth_chunkLimit`: the depth that this leads to is the exact one, up to `2 ^ 59` chunks;
* `Codec.root_packed`: the tree of a list whose elements are packed;
* `Codec.root_packed_large`: a list whose tree is not deep enough.
-/
import SimpleSerialize.Proofs.Binding
import SimpleSerialize.Proofs.Matching
import SimpleSerialize.Proofs.Merkle.FullTree
import SimpleSerialize.Proofs.Resolvable

namespace SimpleSerialize

/-- The chunks that some elements of some width fill together, the last of them perhaps in part. -/
def packedCapacity (width count : Nat) : Nat := (count * width + (chunkSize - 1)) / chunkSize

theorem packedCapacity_mono {width count count' : Nat} (le : count ≤ count') :
    packedCapacity width count ≤ packedCapacity width count' :=
  Nat.div_le_div_right (Nat.add_le_add_right (Nat.mul_le_mul_right width le) _)

/-- The room that is counted is the exact one as long as its bytes can be counted. -/
theorem Format.chunkLimit_eq (width limit : Nat) :
    chunkLimit width limit = min (packedCapacity width limit) (2 ^ 59 - 1) := by
  rw [chunkLimit, packedCapacity, maxWord, chunkSize]
  omega

theorem treeDepth_eq {leaves depth : Nat} (more : 2 ^ depth < leaves)
    (room : leaves ≤ 2 ^ (depth + 1)) : treeDepth leaves = depth + 1 := by
  refine Nat.le_antisymm (treeDepth_le room) (Nat.succ_le_of_lt ?_)
  exact (Nat.pow_lt_pow_iff_right Nat.one_lt_two).mp
    (Nat.lt_of_lt_of_le more (le_two_pow_treeDepth leaves))

/-- The depth of a tree over packed elements: the exact one, as long as that is at most 59. -/
def packedDepth (width limit : Nat) : Nat := treeDepth (min (packedCapacity width limit) (2 ^ 59))

theorem packedDepth_le (width limit : Nat) : packedDepth width limit ≤ 59 :=
  treeDepth_le (Nat.min_le_right _ _)

/-- The room that is counted leads to this depth. -/
theorem treeDepth_chunkLimit {width limit chunks : Nat}
    (within : chunks ≤ packedCapacity width limit) (held : chunks ≤ 2 ^ 59) :
    treeDepth (max (Format.chunkLimit width limit) chunks) = packedDepth width limit := by
  rw [Format.chunkLimit_eq, packedDepth]
  by_cases small : packedCapacity width limit < 2 ^ 59
  · rw [Nat.min_eq_left (by omega), Nat.min_eq_left (by omega), Nat.max_eq_left within]
  · -- The room that is counted is one chunk short of a power of two, which needs no less depth.
    rw [Nat.min_eq_right (by omega), Nat.min_eq_right (by omega), @treeDepth_eq _ 58,
      @treeDepth_eq _ 58] <;> omega

namespace Format

variable {f : Format} {hasher : Hasher} {items : List Value} {tree other : MerkleTree} {width : Nat}

/-- A tree over the packed elements of a sequence. -/
structure PackedTree (f : Format) (items : List Value) (tree : MerkleTree) : Prop where
  full : tree.Full tree.depth
  leaves : ∃ pieces more, List.Forall₂ (fun item piece => f.encode item = .ok piece) items pieces ∧
    tree.leaves = pack pieces.flatten ++ List.replicate more (.zero 32)

/-- Trees over the same packed elements differ by their depths only. -/
theorem PackedTree.eq_iff (h : f.PackedTree items tree) (h' : f.PackedTree items other) :
    tree = other ↔ tree.depth = other.depth := by
  refine ⟨congrArg _, fun depth => ?_⟩
  obtain ⟨pieces, more, each, leaves⟩ := h.leaves
  obtain ⟨pieces', more', each', leaves'⟩ := h'.leaves
  obtain rfl : pieces = pieces' :=
    Except.ok.inj ((mapM_eq_ok.mpr each).symm.trans (mapM_eq_ok.mpr each'))
  have full' : other.Full tree.depth := depth ▸ h'.full
  -- The leaves are as many, and so are the zero chunks among them.
  have lengths : tree.leaves.length = other.leaves.length :=
    h.full.length_leaves.trans full'.length_leaves.symm
  rw [leaves, leaves', List.length_append, List.length_append, List.length_replicate,
    List.length_replicate] at lengths
  obtain rfl : more = more' := Nat.add_left_cancel lengths
  exact h.full.eq_of_leaves full' (leaves.trans leaves'.symm)

/-- The root of packed elements is that of the tree over them with room for all that a limit allows,
if this room can be counted. -/
theorem packedTree_of_elementsRoot {limit : UInt64} {r : Root} (lawful : f.Lawful)
    (packable : f.packable) (hwidth : f.fixedSize = some width)
    (within : items.length ≤ limit.toNat) (held : items.length * width < 2 ^ 64)
    (h : ElementsRoot hasher (.list (some limit)) f items r) :
    ∃ tree, f.PackedTree items tree ∧ r = tree.root hasher.pair ∧
      tree.depth = packedDepth width limit.toNat := by
  rw [ElementsRoot, if_pos packable] at h
  obtain ⟨pieces, each, rfl⟩ := h
  have bytes : pieces.flatten.length = items.length * width := by
    rw [length_flatten_pieces lawful hwidth each, each.length_eq]
  have filled : (pack pieces.flatten).length = packedCapacity width items.length := by
    rw [length_pack, bytes, packedCapacity, Nat.add_sub_assoc (by decide)]
  have slot : f.slotSize = width := by rw [slotSize, hwidth, Option.getD_some]
  have few : (pack pieces.flatten).length ≤ 2 ^ 59 := by
    rw [filled, packedCapacity, chunkSize]
    omega
  have within : (pack pieces.flatten).length ≤ packedCapacity width limit.toNat :=
    filled ▸ packedCapacity_mono within
  have depth := treeDepth_chunkLimit within few
  have low : packedDepth width limit.toNat ≤ maxDepth := Nat.le_trans (packedDepth_le _ _) (by decide)
  obtain ⟨tree, full, leaves, root⟩ := hasher.exists_full_tree (some (chunkLimit width limit.toNat))
    depth low
  refine ⟨tree, ⟨full.depth_eq.symm ▸ full, pieces, _, each, leaves⟩, ?_, full.depth_eq⟩
  rw [slot]
  exact root

/-- The root of a list without elements comes from the table of zero roots. -/
theorem root_of_no_elements {head : Heading} {a : Handler ListAccessor} {limit : UInt64}
    (packable : f.packable) (empty : a.items (.list []) = .ok []) :
    (list head a (.list (some limit)) f).root hasher (.list []) =
      .ok (hasher.mixInLength (hasher.zero (treeDepth (chunkLimit f.slotSize limit.toNat))) 0) := by
  have top : hasher.merkleize (pack []) (some (chunkLimit f.slotSize limit.toNat)) =
      hasher.zero (treeDepth (chunkLimit f.slotSize limit.toNat)) := by
    have none : pack [] = [] := rfl
    rw [none, Hasher.merkleize, Hasher.climb_nil, List.headD_nil, Option.getD_some, List.length_nil,
      Nat.max_zero]
  refine (root_list_eq_ok rfl).mpr ⟨[], _, empty, Nat.zero_le _, ?_, rfl⟩
  rw [ElementsRoot, if_pos packable]
  exact ⟨[], .nil, top.symm⟩

end Format

/-- A list is given the maximum that it declares, whether that is written down or known by a name. -/
theorem Catalog.regime_of_maximum {c : Catalog} {user last element : ShapeId}
    {links : List (String × Rebuild)} {limit : Extent} {n : UInt64} {head : Heading}
    {a : Handler ListAccessor} {regime : Regime} {f : Format} (wf : c.schema.WellFormed)
    (travels : c.schema.TravelsAs user links last)
    (declared : c.schema.declaration? last = some (.sequence element (.bounded limit)))
    (known : c.count? limit = some n)
    (resolved : c.format (c.schema.descriptor user) = .ok (.list head a regime f)) :
    regime = .list (some n) := by
  rw [← Schema.use_none] at resolved
  obtain ⟨_, name, _, _, _, _, same, found, -⟩ := list_of_format wf travels declared resolved
  cases same
  rcases c.extent_eq name limit with ⟨m, extent, count⟩ | ⟨name, rfl, unknown, -⟩
  · rw [Catalog.regime, extent, ok_bind] at found
    cases known.symm.trans count
    cases found
    rfl
  · cases unknown.symm.trans known

namespace Codec

open Format

variable {catalog : Catalog} {hasher : Hasher} {c : Codec} {shape last element : ShapeId}
  {links : List (String × Rebuild)} {limit : Extent} {n : UInt64} {head : Heading}
  {a : Handler ListAccessor} {regime : Regime} {f : Format} {width : Nat} {v : Value} {r : Root}

/-- The tree of a list whose elements are packed has the least depth with room for as many elements as
the maximum of the list says, if they fill at most `2 ^ 59` chunks.  Above that it has depth 59,
whatever the maximum is.  Its depth is all that tells it from other trees over the same elements. -/
theorem root_packed (wf : catalog.schema.WellFormed) (session : Session catalog hasher c)
    (travels : catalog.schema.TravelsAs shape links last)
    (declared : catalog.schema.declaration? last = some (.sequence element (.bounded limit)))
    (known : catalog.count? limit = some n)
    (resolved : catalog.format (catalog.schema.descriptor shape) = .ok (.list head a regime f))
    (packable : f.packable) (hwidth : f.fixedSize = some width) (bare : v.root? = none)
    (accepted : ((root shape v).run c).1 = .ok r) :
    ∃ items, a.items v = .ok items ∧ (items.length * width < 2 ^ 64 →
      ∃ tree, f.PackedTree items tree ∧
        r = hasher.mixInLength (tree.root hasher.pair) items.length ∧
        (packedCapacity width n.toNat ≤ 2 ^ 59 →
          IsLeast {d | packedCapacity width n.toNat ≤ 2 ^ d} tree.depth) ∧
        (2 ^ 59 < packedCapacity width n.toNat → tree.depth = 59) ∧
        ∀ other, f.PackedTree items other → (tree = other ↔ tree.depth = other.depth)) := by
  have lawful : f.Lawful := (Catalog.lawful_of_format resolved).inside f List.mem_cons_self
  obtain rfl := Catalog.regime_of_maximum wf travels declared known resolved
  obtain ⟨items, top, hitems, admits, elements, rfl⟩ :=
    (root_list_eq_ok bare).mp ((root_eq_ok session resolved).mp accepted)
  refine ⟨items, hitems, fun held => ?_⟩
  obtain ⟨tree, packed, rfl, depth⟩ :=
    packedTree_of_elementsRoot lawful packable hwidth admits held elements
  refine ⟨tree, packed, rfl, fun small => ?_, fun large => ?_, fun other => packed.eq_iff⟩
  · rw [depth, packedDepth, Nat.min_eq_left small]
    exact isLeast_treeDepth _
  · rw [depth, packedDepth, Nat.min_eq_right (Nat.le_of_lt large)]
    rfl

/-- Lists of at most so many numbers of 32 bytes. -/
def numbersSchema (limit : UInt64) : Schema where
  entries := [⟨"uint256", .basic (.uint 32)⟩,
    ⟨s!"List[uint256,{limit}]", .sequence 0 (.bounded (.literal limit))⟩]

def numberFormat : Format :=
  .basic ⟨"uint256", ⟨0, .unbounded, none, none, none⟩⟩ ⟨.uint 32, "uint256", []⟩

theorem format_numbers (limit : UInt64) :
    Catalog.format { schema := numbersSchema limit } ((numbersSchema limit).descriptor 1) =
      .ok (.list ⟨s!"List[uint256,{limit}]", ⟨1, .bounded (.literal limit), none, none, none⟩⟩
        ⟨.sequence, s!"List[uint256,{limit}]", []⟩ (.list (some limit)) numberFormat) := rfl

/-- One number where at most five are allowed. -/
theorem root_packed_numbers :
    let c : Codec := { catalog := { schema := numbersSchema 5 } }
    let v : Value := .list [.bigUint 7]
    ∃ r tree, ((root 1 v).run c).1 = .ok r ∧ tree.depth = 3 ∧
      numberFormat.PackedTree [.bigUint 7] tree ∧
      r = c.hasher.mixInLength (tree.root c.hasher.pair) 1 := by
  intro c v
  obtain ⟨r, accepted⟩ : ∃ r, ((root 1 v).run c).1 = .ok r := ⟨_, rfl⟩
  have wf : c.catalog.schema.WellFormed := by decide
  have declared : c.catalog.schema.declaration? 1 =
      some (.sequence 0 (.bounded (.literal 5))) := rfl
  obtain ⟨items, hitems, tree⟩ := root_packed wf .start (.target declared nofun) declared rfl
    (format_numbers 5) rfl rfl rfl accepted
  cases hitems
  obtain ⟨tree, packed, root, least, -⟩ := tree (by decide)
  have depth : tree.depth = 3 := (least (by decide)).unique (isLeast_treeDepth _)
  exact ⟨r, tree, accepted, depth, packed, root⟩

/-- The trees of empty lists are not as deep as their maxima ask for, and are the same for maxima that
ask for different depths. -/
theorem root_packed_large :
    let numbers (limit : UInt64) (hasher : Hasher) : Codec :=
      { catalog := { schema := numbersSchema limit }, hasher }
    let count : Hasher := { pair := fun left _ => .padded 32 [left.bytes.headD 0 + 1] }
    (∃ r, ((root 1 (.list [])).run (numbers 0xffffffffffffffff count)).1 = .ok r ∧
      ∀ tree, numberFormat.PackedTree [] tree →
        IsLeast {d | packedCapacity 32 0xffffffffffffffff ≤ 2 ^ d} tree.depth →
          r ≠ count.mixInLength (tree.root count.pair) 0) ∧
    ∀ hasher, ((root 1 (.list [])).run (numbers 0xffffffffffffffff hasher)).1 =
      ((root 1 (.list [])).run (numbers 0x1000000000000000 hasher)).1 := by
  intro numbers count
  have empty (limit : UInt64) (hasher : Hasher) :
      ((root 1 (.list [])).run (numbers limit hasher)).1 =
        .ok (hasher.mixInLength (hasher.zero (treeDepth (chunkLimit 32 limit.toNat))) 0) :=
    (root_eq_ok .start (format_numbers limit)).mpr (root_of_no_elements rfl rfl)
  refine ⟨⟨_, empty _ _, fun tree packed least => ?_⟩, fun hasher => ?_⟩
  · have depth : tree.depth = 64 := least.unique (isLeast_treeDepth _)
    obtain ⟨pieces, more, each, zeros⟩ := packed.leaves
    cases each
    rw [packed.full.root_of_zeros zeros, depth]
    decide +kernel
  · have same : treeDepth (chunkLimit 32 (0xffffffffffffffff : UInt64).toNat) =
        treeDepth (chunkLimit 32 (0x1000000000000000 : UInt64).toNat) := by decide +kernel
    rw [empty, empty, same]

end Codec

end SimpleSerialize
