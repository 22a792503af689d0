/-
The root of a value is a binding commitment to it.

Two different normal values of one format with the same root give a collision of the chunk hash
among the pairs that were hashed for the two roots.  Nothing is asked of the hash: it is shown, node
by node, that a root without collisions determines what it was computed from.  Main statements:

* `Format.binds`: without collisions, two normal values with the same root are the same;
* `Catalog.collision_of_root_eq`: two different normal values with the same root give a collision.
-/
import SimpleSerialize.Proofs.RecordedRoot
import SimpleSerialize.Proofs.Resolution
import SimpleSerialize.Proofs.RoundTrip

namespace SimpleSerialize

/-- Every sequence in the value has so few elements that a 64-bit word counts them, as all sequences
in the memory of a machine do.  Numbers of elements are mixed into roots as such words. -/
def Value.Counted : Value → Prop :=
  Everywhere Value.parts fun
    | .list items => items.length < 2 ^ 64
    | .bytes bs => bs.length < 2 ^ 64
    | _ => True

/-- A normal value is determined by its bytes. -/
theorem BasicForm.eq_of_encode {form : BasicForm} {shape other : String} {v w : Value}
    {bytes : Bytes} (hv : form.IsNormal v) (hw : form.IsNormal w)
    (encoded : form.encode shape v = .ok bytes) (encoded' : form.encode other w = .ok bytes) :
    v = w := by
  have left : form.decode shape bytes = .ok (form.normal v) := decode_of_encode encoded
  have right : form.decode shape bytes = .ok (form.normal w) := decode_of_encode encoded'
  rw [normal_of_isNormal hv] at left
  rw [normal_of_isNormal hw, left] at right
  exact Except.ok.inj right

/-! ### Records of several parts -/

section Records

variable {hash : ChunkHash} {h : Hasher} {outs outs' : List (Root × List (Root × Root))}

/-- Two parts with the same root and no collision between their records. -/
def Agree (hash : ChunkHash) (out out' : Root × List (Root × Root)) : Prop :=
  out.1 = out'.1 ∧ Clean hash (out.2 ++ out'.2)

/-- Parts that have the same roots agree one by one. -/
theorem agree_of_clean (same : outs.map (·.1) = outs'.map (·.1))
    (clean : Clean hash (outs.flatMap (·.2) ++ outs'.flatMap (·.2))) :
    List.Forall₂ (Agree hash) outs outs' := by
  induction outs generalizing outs' with
  | nil =>
    obtain rfl : outs' = [] := List.map_eq_nil_iff.mp same.symm
    exact .nil
  | cons out outs ih =>
    cases outs' with
    | nil => cases same
    | cons out' outs' =>
      obtain ⟨first, rest⟩ := List.cons_eq_cons.mp same
      exact .cons ⟨first, clean.first⟩ (ih rest clean.second)

/-- Parts whose trees have the same root agree one by one, if their number is known. -/
theorem agree_of_tree {limit : Option Nat} (length : outs.length = outs'.length)
    (same : h.merkleize (outs.map (·.1)) limit = h.merkleize (outs'.map (·.1)) limit)
    (clean : Clean h.pair
      ((outs.flatMap (·.2) ++ (Recorded.merkleize h (outs.map (·.1)) limit).pairs) ++
        (outs'.flatMap (·.2) ++ (Recorded.merkleize h (outs'.map (·.1)) limit).pairs))) :
    List.Forall₂ (Agree h.pair) outs outs' := by
  have counts : (outs.map (·.1)).length = (outs'.map (·.1)).length := by
    rw [List.length_map, List.length_map, length]
  exact agree_of_clean (Recorded.merkleize_injective counts clean.second same) clean.first

end Records

namespace Format

open Hashing

variable {hasher : Hasher} {f : Format}

/-- Without collisions, a root determines the normal value that it was computed from. -/
def Binds (hasher : Hasher) (f : Format) : Prop :=
  ∀ v w r ps qs, f.IsNormal v → f.IsNormal w → v.Counted → w.Counted →
    Gives (f.rootRecorded hasher v) r ps → Gives (f.rootRecorded hasher w) r qs →
    Clean hasher.pair (ps ++ qs) → v = w

/-! ### Sequences -/

/-- The number of elements of a sequence and the tree over them are determined, too. -/
theorem finish_injective {regime : Regime} {m n : Nat} {t u : Root} (hm : m < 2 ^ 64)
    (hn : n < 2 ^ 64) (admits : regime.Admits m) (admits' : regime.Admits n)
    (same : finishSequence hasher regime m t = finishSequence hasher regime n u)
    (clean : Clean hasher.pair ((finishRecorded hasher regime m t).pairs ++
      (finishRecorded hasher regime n u).pairs)) : m = n ∧ t = u := by
  cases regime with
  | vector length =>
    have counts : m = n := Eq.trans admits (Eq.symm admits')
    exact ⟨counts, same⟩
  | list limit =>
    have pairs : (t, numberChunk m) = (u, numberChunk n) :=
      clean _ List.mem_cons_self _ (List.mem_append_right _ List.mem_cons_self) same
    obtain ⟨trees, numbers⟩ := Prod.ext_iff.mp pairs
    exact ⟨numberChunk_injective hm hn numbers, trees⟩

/-- A normal sequence has normal elements, as many as a word counts, and is determined by them. -/
theorem elements_of_isNormal {head : Heading} {a : Handler ListAccessor} {regime : Regime}
    {v : Value} {items : List Value} (lawful : (list head a regime f).Lawful)
    (normal : (list head a regime f).IsNormal v) (counted : v.Counted)
    (h : a.items v = .ok items) :
    items.length < 2 ^ 64 ∧ (∀ item ∈ items, f.IsNormal item ∧ item.Counted) ∧
      ∀ w, (list head a regime f).IsNormal w → a.items w = .ok items → v = w := by
  cases normal with
  | items base each =>
    obtain same | ⟨_, _, bad, _⟩ := ListAccessor.items_eq_ok.mp h
    · cases same
      refine ⟨counted.here, fun item mem => ⟨each item mem, counted.inside item mem⟩, ?_⟩
      intro w normal hw
      cases normal with
      | items _ _ =>
        obtain same | ⟨_, _, bad, _⟩ := ListAccessor.items_eq_ok.mp hw
        · exact same.symm
        · cases bad
      | bytes base' => cases base.symm.trans base'
    · cases bad
  | @bytes _ _ _ _ bs base =>
    have isByte := lawful.here.2 base
    obtain bad | ⟨-, _, same, rfl⟩ := ListAccessor.items_eq_ok.mp h
    · cases bad
    cases same
    refine ⟨?_, fun item mem => ?_, fun w normal hw => ?_⟩
    · rw [List.length_map]
      exact counted.here
    · obtain ⟨b, -, rfl⟩ := List.mem_map.mp mem
      exact ⟨isNormal_byte isByte b, .node trivial fun _ inside => nomatch inside⟩
    · cases normal with
      | items base' _ => cases base.symm.trans base'
      | @bytes _ _ _ _ cs _ =>
        obtain bad | ⟨-, _, same, maps⟩ := ListAccessor.items_eq_ok.mp hw
        · cases bad
        cases same
        have injective : Function.Injective fun b : UInt8 => Value.uint b.toUInt64 := by
          intro b c h
          exact UInt8.toUInt64_inj.mp (Value.uint.inj h)
        rw [List.map_inj_right injective |>.mp maps]

theorem eq_of_encode_packable {v w : Value} {bytes : Bytes} (packable : f.packable)
    (hv : f.IsNormal v) (hw : f.IsNormal w) (encoded : f.encode v = .ok bytes)
    (encoded' : f.encode w = .ok bytes) : v = w := by
  cases f with
  | basic head a =>
    have shown := hv.concrete
    have shown' := hw.concrete
    obtain ⟨x, hx, encoded⟩ := encode_basic_eq_ok.mp encoded
    obtain ⟨y, hy, encoded'⟩ := encode_basic_eq_ok.mp encoded'
    cases shown.symm.trans hx
    cases shown'.symm.trans hy
    cases hv with
    | basic hv =>
      cases hw with
      | basic hw => exact BasicForm.eq_of_encode hv hw encoded encoded'
  | _ => cases packable

theorem fixedSize_of_packable (packable : f.packable) : ∃ width, f.fixedSize = some width := by
  cases f with
  | basic head a => exact ⟨_, rfl⟩
  | _ => cases packable

/-- Elements of the same size are determined by their bytes together. -/
theorem elements_of_pieces {xs ys : List Value} {pieces pieces' : List Bytes} (lawful : f.Lawful)
    (packable : f.packable) (hxs : ∀ x ∈ xs, f.IsNormal x) (hys : ∀ y ∈ ys, f.IsNormal y)
    (each : List.Forall₂ (fun x piece => f.encode x = .ok piece) xs pieces)
    (each' : List.Forall₂ (fun y piece => f.encode y = .ok piece) ys pieces')
    (length : pieces.length = pieces'.length) (same : pieces.flatten = pieces'.flatten) :
    xs = ys := by
  obtain ⟨width, hwidth⟩ := fixedSize_of_packable packable
  have short := forall_right each fun _ _ encoded => length_of_encode lawful encoded width hwidth
  have short' := forall_right each' fun _ _ encoded => length_of_encode lawful encoded width hwidth
  have equal : pieces = pieces' := by
    rw [← chunks_flatten short, ← chunks_flatten short', length, same]
  refine eq_of_related each each' (List.forall₂_eq_eq_eq ▸ equal) ?_
  rintro x hx y hy piece _ encoded encoded' rfl
  exact eq_of_encode_packable packable (hxs x hx) (hys y hy) encoded encoded'

theorem length_flatten_pieces {xs : List Value} {pieces : List Bytes} {width : Nat}
    (lawful : f.Lawful) (hwidth : f.fixedSize = some width)
    (each : List.Forall₂ (fun x piece => f.encode x = .ok piece) xs pieces) :
    pieces.flatten.length = pieces.length * width := by
  have short := forall_right each fun _ _ encoded => length_of_encode lawful encoded width hwidth
  rw [List.length_flatten, List.map_eq_replicate_iff.mpr short, List.sum_replicate_nat]

/-- The tree over the elements of a sequence of known length determines them. -/
theorem elements_of_tree {regime : Regime} {xs ys : List Value} {tree : Root}
    {ps qs : List (Root × Root)} (below : Binds hasher f) (lawful : f.Lawful)
    (length : xs.length = ys.length)
    (hxs : ∀ x ∈ xs, f.IsNormal x ∧ x.Counted) (hys : ∀ y ∈ ys, f.IsNormal y ∧ y.Counted)
    (left : ElementsRecorded hasher regime f xs tree ps)
    (right : ElementsRecorded hasher regime f ys tree qs)
    (clean : Clean hasher.pair (ps ++ qs)) : xs = ys := by
  unfold ElementsRecorded at left right
  split at left
  · -- The elements share chunks: the tree determines their bytes together.
    rename_i packable
    rw [if_pos packable] at right
    obtain ⟨pieces, each, rfl, rfl⟩ := left
    obtain ⟨pieces', each', same, rfl⟩ := right
    obtain ⟨width, hwidth⟩ := fixedSize_of_packable packable
    have counts : pieces.length = pieces'.length := by
      rw [← each.length_eq, ← each'.length_eq, length]
    have lengths : pieces.flatten.length = pieces'.flatten.length := by
      rw [length_flatten_pieces lawful hwidth each, length_flatten_pieces lawful hwidth each',
        counts]
    exact elements_of_pieces lawful packable (fun x hx => (hxs x hx).1) (fun y hy => (hys y hy).1)
      each each' counts (Recorded.merkleize_pack_injective lengths clean same)
  · -- Every element has a root: the tree determines the roots, and each of them its element.
    rename_i packable
    rw [if_neg packable] at right
    obtain ⟨outs, each, rfl, rfl⟩ := left
    obtain ⟨outs', each', same, rfl⟩ := right
    have counts : outs.length = outs'.length := by
      rw [← each.length_eq, ← each'.length_eq, length]
    refine eq_of_related each each' (agree_of_tree counts same clean) ?_
    rintro x hx y hy ⟨r, ps⟩ ⟨_, qs⟩ left right ⟨rfl, clean⟩
    exact below x y r ps qs (hxs x hx).1 (hys y hy).1 (hxs x hx).2 (hys y hy).2 left right clean

/-! ### All formats -/

/-- Without collisions, two normal values with the same root are the same. -/
theorem binds (lawful : f.Lawful) : Binds hasher f := by
  induction f with
  | basic head a =>
    intro v w r ps qs hv hw _ _ left right clean
    obtain ⟨bytes, encoded, rfl, rfl⟩ := recorded_basic hv.root?_eq left
    obtain ⟨bytes', encoded', same, rfl⟩ := recorded_basic hw.root?_eq right
    have lengths : bytes.length = bytes'.length := by
      rw [BasicForm.length_of_encode encoded, BasicForm.length_of_encode encoded']
    obtain rfl := Recorded.merkleize_pack_injective lengths clean same
    cases hv with
    | basic hv =>
      cases hw with
      | basic hw => exact BasicForm.eq_of_encode hv hw encoded encoded'
  | list head a regime element ih =>
    intro v w r ps qs hv hw counted counted' left right clean
    obtain ⟨xs, tree, below, hxs, admits, hash, rfl, rfl⟩ := recorded_list hv.root?_eq left
    obtain ⟨ys, tree', below', hys, admits', hash', same, rfl⟩ := recorded_list hw.root?_eq right
    obtain ⟨few, each, determined⟩ := elements_of_isNormal lawful hv counted hxs
    obtain ⟨few', each', -⟩ := elements_of_isNormal lawful hw counted' hys
    obtain ⟨counts, rfl⟩ := finish_injective few few' admits admits' same clean.second
    have element : element.Lawful := lawful.inside element List.mem_cons_self
    obtain rfl := elements_of_tree (ih element) element counts each each' hash hash' clean.first
    exact determined w hw hys
  | union head a nullable variants ih =>
    intro v w r ps qs hv hw counted counted' left right clean
    obtain ⟨s, top, below, hs, rfl, rfl, chosen⟩ := recorded_union hv.root?_eq left
    obtain ⟨s', top', below', hs', same, rfl, chosen'⟩ := recorded_union hw.root?_eq right
    -- The last pair of either record holds the selector, so that both take the same branch.
    have pairs : (top, numberChunk s.toNat) = (top', numberChunk s'.toNat) :=
      clean.second _ List.mem_cons_self _ (List.mem_append_right _ List.mem_cons_self) same
    obtain ⟨tops, numbers⟩ := Prod.ext_iff.mp pairs
    have few (s : UInt32) : s.toNat < 2 ^ 64 := Nat.lt_trans s.toNat_lt (by decide)
    obtain rfl : top = top' := tops
    obtain rfl : s = s' := UInt32.toNat_inj.mp (numberChunk_injective (few s) (few s') numbers)
    obtain ⟨body, rfl⟩ := UnionAccessor.selector_eq_ok.mp hs
    obtain ⟨body', rfl⟩ := UnionAccessor.selector_eq_ok.mp hs'
    rcases chosen with ⟨empty, -⟩ | ⟨f, x, chosen, hx, hash⟩
    · -- No normal value has a body under the empty case.
      cases hv with
      | body chosen _ => cases empty.symm.trans chosen
      | empty _ =>
        cases hw with
        | body chosen _ => cases empty.symm.trans chosen
        | empty _ => rfl
    · rcases chosen' with ⟨empty, -⟩ | ⟨f', y, chosen', hy, hash'⟩
      · cases chosen.symm.trans empty
      obtain rfl : body = some x := hx
      obtain rfl : body' = some y := hy
      cases chosen.symm.trans chosen'
      cases hv with
      | body first hv =>
        cases chosen.symm.trans first
        cases hw with
        | body second hw =>
          cases chosen.symm.trans second
          have mem := Variant.mem_of_select chosen
          rw [ih f mem (lawful.inside f mem) x y _ _ _ hv hw (counted.inside x List.mem_cons_self)
            (counted'.inside y List.mem_cons_self) hash hash' clean.first]
  | container head a fields size ih =>
    intro v w r ps qs hv hw counted counted' left right clean
    obtain ⟨values, outs, hvalues, each, rfl, rfl⟩ := recorded_container hv.root?_eq left
    obtain ⟨values', outs', hvalues', each', same, rfl⟩ := recorded_container hw.root?_eq right
    obtain rfl := ContainerAccessor.fieldsOf_eq_ok.mp hvalues
    obtain rfl := ContainerAccessor.fieldsOf_eq_ok.mp hvalues'
    have counts : outs.length = outs'.length := by
      rw [← each.length_right, ← each'.length_right]
    have agree := agree_of_tree counts same clean
    cases hv with
    | container normal =>
      cases hw with
      | container normal' =>
        refine congrArg Value.container ((each.and_left normal).eq_of_related
          (each'.and_left normal') agree ?_)
        rintro f mem x hx y hy ⟨r, ps⟩ ⟨_, qs⟩ ⟨hv, left⟩ ⟨hw, right⟩ ⟨rfl, clean⟩
        exact ih f mem (lawful.inside f mem) x y r ps qs hv hw (counted.inside x hx)
          (counted'.inside y hy) left right clean

/-- The pairs of chunks that are hashed for the root of a value. -/
def hashedPairs (hasher : Hasher) (f : Format) (v : Value) : List (Root × Root) :=
  (f.rootRecorded hasher v).run.pairs

end Format

/-- Two different normal values of a shape that have the same root give a collision of the chunk
hash: two different pairs among those that were hashed for the roots have the same hash. -/
theorem Catalog.collision_of_root_eq {catalog : Catalog} {hasher : Hasher} {d : Descriptor}
    {f : Format} {v w : Value} {r : Root} (resolved : catalog.format d = .ok f)
    (hv : f.IsNormal v) (hw : f.IsNormal w) (counted : v.Counted) (counted' : w.Counted)
    (different : v ≠ w) (root : f.root hasher v = .ok r) (root' : f.root hasher w = .ok r) :
    Collision hasher.pair (f.hashedPairs hasher v ++ f.hashedPairs hasher w) := by
  refine collision_of_not_clean fun clean => different ?_
  have left := Hashing.gives_of_result ((f.result_rootRecorded hasher v).trans root)
  have right := Hashing.gives_of_result ((f.result_rootRecorded hasher w).trans root')
  exact Format.binds (Catalog.lawful_of_format resolved) v w r _ _ hv hw counted counted' left right
    clean

theorem Catalog.collision_of_root_eq_record :
    let hasher : Hasher := { pair := fun _ _ => .zero 32 }
    let f := recordFormat .ok
    let v : Value := .container [.uint 1, .list []]
    let w : Value := .container [.uint 2, .list [.uint 5]]
    f.root hasher v = f.root hasher w ∧
      Collision hasher.pair (f.hashedPairs hasher v ++ f.hashedPairs hasher w) := by
  intro hasher f v w
  have left : f.root hasher v = .ok (.zero 32) := by decide +kernel
  have right : f.root hasher w = .ok (.zero 32) := by decide +kernel
  have normal (n : UInt64) {items : List Value} (hn : ∀ item ∈ items, ∃ m, item = .uint m) :
      f.IsNormal (.container [.uint n, .list items]) := by
    refine .container (.cons (.basic (.word n (by decide))) (.cons (.items rfl ?_) .nil))
    intro item mem
    obtain ⟨m, rfl⟩ := hn item mem
    exact .basic (.word m (by decide))
  have counted (n : UInt64) {items : List Value} (hn : ∀ item ∈ items, ∃ m, item = .uint m)
      (few : items.length < 2 ^ 64) : (Value.container [.uint n, .list items]).Counted := by
    have word (n : UInt64) : (Value.uint n).Counted := .node trivial fun _ inside => nomatch inside
    refine .node trivial fun part mem => ?_
    rcases List.mem_pair.mp mem with rfl | rfl
    · exact word n
    · refine .node few fun item mem => ?_
      obtain ⟨m, rfl⟩ := hn item mem
      exact word m
  have none : ∀ item ∈ ([] : List Value), ∃ m, item = .uint m := fun _ mem => nomatch mem
  have five : ∀ item ∈ [Value.uint 5], ∃ m, item = .uint m := fun _ mem =>
    ⟨5, List.mem_singleton.mp mem⟩
  refine ⟨left.trans right.symm, ?_⟩
  exact Catalog.collision_of_root_eq (format_record .ok) (normal 1 none) (normal 2 five)
    (counted 1 none (by decide)) (counted 2 five (by decide)) (by decide) left right

end SimpleSerialize
