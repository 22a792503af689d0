/-
Roots of values.

The root of a basic value is the root of its bytes, packed into chunks.  A composite is the tree
over the roots of its parts, except that a sequence of packable elements is the tree over their
packed bytes.  The number of elements of a list and the selector of a union are mixed in.  Where an
overlay gives a root, that root stands for the part, and nothing underneath is looked at.
-/
import SimpleSerialize.Format.Encode
import SimpleSerialize.Merkle.Tree

namespace SimpleSerialize

namespace Format

/-- The greatest 64-bit word. -/
def maxWord : Nat := 0xffffffffffffffff

/-- The chunks that the packed elements of a sequence can fill, counted in 64-bit words that stop at
their greatest value. -/
def chunkLimit (width limit : Nat) : Nat :=
  min (min (limit * width) maxWord + (chunkSize - 1)) maxWord / chunkSize

/-- Mixes the number of elements into the root of a list. -/
def finishSequence (h : Hasher) (regime : Regime) (count : Nat) (root : Root) : Root :=
  match regime with
  | .vector _ => root
  | .list _ => h.mixInLength root count

mutual

/-- The root of a value. -/
def root (hasher : Hasher) : Format → Value → Except EncodeError Root
  | basic _ a, v =>
    match v.root? with
    | some root => .ok root
    | none => do return hasher.merkleize (pack (← a.encode v)) none
  | list h a regime element, v =>
    match v.root? with
    | some root => .ok root
    | none => do
      let items ← a.items v
      regime.check h.name items.length
      let limit := regime.limit?.map (·.toNat)
      let tree ←
        -- Elements that share chunks are written out: an overlay on one of them is looked through.
        if element.packable then do
          let pieces ← items.mapM fun item => element.encode item
          pure (hasher.merkleize (pack pieces.flatten) (limit.map (chunkLimit element.slotSize)))
        else do
          let roots ← items.mapM fun item => element.root hasher item
          pure (hasher.merkleize roots limit)
      return finishSequence hasher regime items.length tree
  | union h a nullable variants, v =>
    match v.root? with
    | some root => .ok root
    | none => do
      let selector ← a.selector v
      match Variant.select nullable (rooters hasher variants) selector with
      | none => .error (.unionSelector h.name selector)
      | some .empty => return hasher.mixInSelector (.zero 32) selector
      | some (.body rootBody) =>
        return hasher.mixInSelector (← rootBody (← bodyOf h.name (a.body? v))) selector
  | container h a fields _, v =>
    match v.root? with
    | some root => .ok root
    | none => do
      let values ← a.fields (← seen h.name v)
      checkArity h.name fields.length values.length
      let roots ← ((rooters hasher fields).zip values).mapM fun (rootField, value) =>
        rootField value
      return hasher.merkleize roots none

/-- How each of some formats computes the root of a value. -/
def rooters (hasher : Hasher) : List Format → List (Value → Except EncodeError Root)
  | [] => []
  | f :: fs => f.root hasher :: rooters hasher fs

end

@[simp] theorem rooters_eq (hasher : Hasher) (fs : List Format) :
    rooters hasher fs = fs.map (root hasher) := by
  induction fs with
  | nil => rfl
  | cons f fs ih => rw [rooters, ih, List.map_cons]

/-- The root that signatures over a container are made for: the root of all its fields but the last.
An overlay on the container itself is looked through. -/
def signingRoot (hasher : Hasher) (f : Format) (v : Value) : Except EncodeError Root :=
  match f with
  | container h a fields _ => do
    let values ← a.fields (← seen h.name v)
    checkArity h.name fields.length values.length
    let roots ← (fields.dropLast.zip values).mapM fun (field, value) => field.root hasher value
    return hasher.merkleize roots none
  | f => .error (.valueMismatch f.name "container" "non-container shape")

end Format

end SimpleSerialize
