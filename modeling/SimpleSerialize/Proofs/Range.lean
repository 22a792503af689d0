/-
Writing some elements of a sequence.

A range of elements is laid out as a sequence of its own: offsets count from its first byte, and
neither the elements around it nor the number of elements that the shape asks for matter.  Main
statements:

* `Format.encodeRange_eq_ok`: what is written for a range;
* `Format.encodeRange_of_fixed`: elements of one size are cut out of the bytes of the whole sequence;
* `Format.flatten_consecutive`: ranges that follow each other join to the whole;
* `Codec.encodeRange_eq_slice`: the same of codecs, against the unbounded list of the elements.
-/
import SimpleSerialize.Proofs.RoundTrip
import SimpleSerialize.Proofs.Sequences

namespace SimpleSerialize

/-! ### Pieces of one width -/

section Pieces

variable {α : Type} {width : Nat} {pieces : List (List α)}

theorem flatten_drop (widths : ∀ piece ∈ pieces, piece.length = width) (n : Nat) :
    (pieces.drop n).flatten = pieces.flatten.drop (n * width) := by
  induction pieces generalizing n with
  | nil => simp
  | cons piece pieces ih =>
    obtain ⟨rfl, widths⟩ := List.forall_mem_cons.mp widths
    cases n with
    | zero => simp
    | succ n =>
      rw [List.drop_succ_cons, ih widths, List.flatten_cons, Nat.succ_mul, Nat.add_comm,
        List.drop_length_add_append]

theorem flatten_take (widths : ∀ piece ∈ pieces, piece.length = width) (n : Nat) :
    (pieces.take n).flatten = pieces.flatten.take (n * width) := by
  induction pieces generalizing n with
  | nil => simp
  | cons piece pieces ih =>
    obtain ⟨rfl, widths⟩ := List.forall_mem_cons.mp widths
    cases n with
    | zero => simp
    | succ n =>
      rw [List.take_succ_cons, List.flatten_cons, ih widths, List.flatten_cons, Nat.succ_mul,
        Nat.add_comm, List.take_length_add_append]

/-- Ranges of these lengths, one after the other. -/
def consecutive : (start : Nat) → (lens : List Nat) → List (Nat × Nat)
  | _, [] => []
  | start, len :: lens => (start, len) :: consecutive (start + len) lens

theorem le_of_mem_consecutive {start : Nat} {lens : List Nat} :
    ∀ range ∈ consecutive start lens, range.1 + range.2 ≤ start + lens.sum := by
  induction lens generalizing start with
  | nil => exact fun _ mem => nomatch mem
  | cons len lens ih =>
    intro range mem
    rw [List.sum_cons, ← Nat.add_assoc]
    rcases List.mem_cons.mp mem with rfl | mem
    · exact Nat.le_add_right _ _
    · exact ih range mem

/-- What consecutive ranges cut out joins again. -/
theorem flatten_consecutive (whole : List α) (start : Nat) (lens : List Nat) :
    ((consecutive start lens).map fun range =>
      (whole.drop (range.1 * width)).take (range.2 * width)).flatten =
      (whole.drop (start * width)).take (lens.sum * width) := by
  induction lens generalizing start with
  | nil => simp [consecutive]
  | cons len lens ih =>
    rw [consecutive, List.map_cons, List.flatten_cons, ih, List.sum_cons, Nat.add_mul, Nat.add_mul,
      List.take_add, List.drop_drop]

end Pieces

/-! ### Ranges -/

namespace Format

open Layout

variable {head : Heading} {a : Handler ListAccessor} {regime : Regime} {element f : Format}
  {v : Value} {items : List Value} {start len : Nat} {bytes : Bytes}

/-- The value is a sequence of these elements, whatever overlays are on it. -/
def Elements : Format → Value → List Value → Prop
  | list _ a _ _, v, items => ∃ w, v.concrete = some w ∧ a.items w = .ok items
  | _, _, _ => False

/-- Elements are composed to a sequence of their own. -/
theorem compose_elements_eq_ok {shape : String} {size : Option Nat} :
    compose shape (items.map fun item => (size, element.encode item)) = .ok bytes ↔
      ∃ bodies, List.Forall₂ (fun item body => element.encode item = .ok body) items bodies ∧
        Written (elementParts size bodies) bytes := by
  simp only [compose_eq_ok, elements_eq_children]
  constructor
  · rintro ⟨_, ⟨bodies, rfl, each⟩, written⟩
    exact ⟨bodies, each, written⟩
  · rintro ⟨bodies, each, written⟩
    exact ⟨_, ⟨bodies, rfl, each⟩, written⟩

theorem encodeRange_eq_ok (has : (list head a regime element).Elements v items)
    (within : start + len ≤ items.length) :
    (list head a regime element).encodeRange v start len = .ok bytes ↔ ∃ bodies,
      List.Forall₂ (fun item body => element.encode item = .ok body)
        ((items.drop start).take len) bodies ∧
      Written (elementParts element.fixedSize bodies) bytes := by
  obtain ⟨w, shown, hitems⟩ := has
  rw [encodeRange, seen_eq_ok.mpr shown, ok_bind, hitems, ok_bind, if_pos within,
    compose_elements_eq_ok]

theorem encodeRange_eq_error (has : (list head a regime element).Elements v items)
    (beyond : items.length < start + len) :
    (list head a regime element).encodeRange v start len =
      .error (.rangeOutOfBounds head.name start len items.length) := by
  obtain ⟨w, shown, hitems⟩ := has
  rw [encodeRange, seen_eq_ok.mpr shown, ok_bind, hitems, ok_bind,
    if_neg (Nat.not_le_of_lt beyond)]

/-- A list without a maximum takes any elements. -/
theorem encode_unbounded_eq_ok : (list head a (.list none) element).encode (.list items) = .ok bytes ↔
    ∃ bodies, List.Forall₂ (fun item body => element.encode item = .ok body) items bodies ∧
      Written (elementParts element.fixedSize bodies) bytes := by
  have hitems : a.items (.list items) = .ok items := ListAccessor.items_eq_ok.mpr (.inl rfl)
  rw [encode_list_eq_ok]
  constructor
  · rintro ⟨w, items', bodies, shown, hitems', -, each, written⟩
    cases shown
    cases hitems.symm.trans hitems'
    exact ⟨bodies, each, written⟩
  · rintro ⟨bodies, each, written⟩
    exact ⟨_, items, bodies, rfl, hitems, trivial, each, written⟩

/-- Elements of one size are cut out of the bytes of the whole sequence. -/
theorem encodeRange_of_fixed (lawful : (list head a regime element).Lawful)
    (has : (list head a regime element).Elements v items) {width : Nat}
    (fixed : element.fixedSize = some width)
    (whole : (list head a regime element).encode v = .ok bytes) :
    bytes.length = items.length * width ∧ ∀ start len, start + len ≤ items.length →
      (list head a regime element).encodeRange v start len =
        .ok ((bytes.drop (start * width)).take (len * width)) := by
  have ⟨w, shown, hitems⟩ := has
  obtain ⟨w', items', bodies, shown', hitems', -, each, written⟩ := encode_list_eq_ok.mp whole
  cases shown.symm.trans shown'
  cases hitems.symm.trans hitems'
  have below : element.Lawful := lawful.inside element List.mem_cons_self
  have widths : ∀ body ∈ bodies, body.length = width :=
    forall_right each fun _ _ encoded => length_of_encode below encoded width fixed
  rw [fixed, written_fixed] at written
  subst written
  refine ⟨?_, fun start len within => ?_⟩
  · rw [List.length_flatten, List.map_congr_left widths, List.map_const', List.sum_replicate_nat,
      each.length_eq]
  · rw [encodeRange_eq_ok has within, fixed]
    refine ⟨(bodies.drop start).take len, List.forall₂_take len (List.forall₂_drop start each), ?_⟩
    have inside : ∀ body ∈ bodies.drop start, body.length = width :=
      fun body mem => widths body (List.mem_of_mem_drop mem)
    rw [written_fixed, flatten_take inside, flatten_drop widths]

end Format

/-! ### Codecs -/

namespace Codec

variable {catalog : Catalog} {hasher : Hasher} {c c' : Codec} {shape last element : ShapeId}
  {links : List (String × Rebuild)} {size : SizeRule} {f : Format} {v : Value} {items : List Value}

/-- Some elements of a sequence are written as the unbounded list of these elements, whether there is a
shape for that list or not; elements that are not there are refused.  If all elements have one size,
they are written as in the whole sequence. -/
theorem encodeRange_eq_slice (wf : catalog.schema.WellFormed) (session : Session catalog hasher c)
    (session' : Session catalog hasher c') (travels : catalog.schema.TravelsAs shape links last)
    (declared : catalog.schema.declaration? last = some (.sequence element size))
    (resolved : catalog.format (catalog.schema.descriptor shape) = .ok f)
    (has : f.Elements v items) (start len : Nat) :
    (start + len ≤ items.length → ∀ bytes,
      (∀ head a e, catalog.format (catalog.schema.descriptor element) = .ok e →
        (((encodeRange shape v start len).run c).1 = .ok bytes ↔
          (Format.list head a (.list none) e).encode (.list ((items.drop start).take len)) =
            .ok bytes)) ∧
      ∀ unbounded, catalog.schema.declaration? unbounded = some (.sequence element .unbounded) →
        (((encodeRange shape v start len).run c).1 = .ok bytes ↔
          ((encode unbounded (.list ((items.drop start).take len))).run c').1 = .ok bytes)) ∧
    (items.length < start + len → ((encodeRange shape v start len).run c).1 =
      .error (.encode
        (.rangeOutOfBounds (catalog.schema.name shape) start len items.length))) ∧
    ∀ width whole, ((fixedSize element).run c').1 = .ok (some width) →
      ((encode shape v).run c').1 = .ok whole →
      (start + len ≤ items.length → ((encodeRange shape v start len).run c).1 =
        .ok ((whole.drop (start * width)).take (len * width))) ∧
      ∀ lens : List Nat, lens.sum = items.length → ∃ pieces,
        List.Forall₂ (fun range piece =>
          ((encodeRange shape v range.1 range.2).run c).1 = .ok piece) (consecutive 0 lens) pieces ∧
        pieces.flatten = whole := by
  have range (start len : Nat) : ((encodeRange shape v start len).run c).1 =
      (f.encodeRange v start len).mapError .encode := by
    rw [encodeRange, run_withFormat session resolved]
  obtain ⟨a, regime, e, first, rfl⟩ := Catalog.format_of_sequence wf travels declared resolved
  refine ⟨fun within bytes => ?_, fun beyond => ?_, fun width whole fixed written => ?_⟩
  · have slice (head : Heading) (b : Handler ListAccessor) :
        ((encodeRange shape v start len).run c).1 = .ok bytes ↔
          (Format.list head b (.list none) e).encode (.list ((items.drop start).take len)) =
            .ok bytes := by
      rw [range, mapError_eq_ok, Format.encodeRange_eq_ok has within, Format.encode_unbounded_eq_ok]
    refine ⟨fun head b e' first' => ?_, fun unbounded declared' => ?_⟩
    · cases first.symm.trans first'
      exact slice head b
    · obtain ⟨b, beside⟩ :=
        Catalog.format_unbounded_beside wf travels declared declared' resolved first
      rw [slice, encode_eq_ok session' beside]
  · rw [range, Format.encodeRange_eq_error has beyond]
    rfl
  · have fixed : e.fixedSize = some width :=
      Except.ok.inj ((run_withFormat session' first _).symm.trans fixed)
    obtain ⟨length, cut⟩ := Format.encodeRange_of_fixed (Catalog.lawful_of_format resolved) has fixed
      ((encode_eq_ok session' resolved).mp written)
    have piece (start len : Nat) (within : start + len ≤ items.length) :
        ((encodeRange shape v start len).run c).1 =
          .ok ((whole.drop (start * width)).take (len * width)) := by
      rw [range, cut start len within]
      rfl
    refine ⟨piece start len, fun lens total => ?_⟩
    refine ⟨(consecutive 0 lens).map fun range =>
      (whole.drop (range.1 * width)).take (range.2 * width), ?_, ?_⟩
    · rw [List.forall₂_map_right_iff, List.forall₂_same]
      intro range mem
      have within := le_of_mem_consecutive range mem
      rw [total, Nat.zero_add] at within
      exact piece range.1 range.2 within
    · rw [flatten_consecutive, total, ← length, Nat.zero_mul, List.drop_zero, List.take_length]

/-- Numbers, lists of at most two, a shape that travels as such a list, and unbounded lists. -/
def pagesSchema : Schema where
  entries := [
    ⟨"uint16", .basic (.uint 2)⟩,
    ⟨"List[uint16,2]", .sequence 0 (.bounded (.literal 2))⟩,
    ⟨"Pages", .subclass 1 .ok⟩,
    ⟨"List[uint16]", .sequence 0 .unbounded⟩]

theorem wellFormed_pages : pagesSchema.WellFormed := by decide

/-- Two of four numbers, where one of the others is too large and only two are allowed; and one of two
numbers, cut out of the bytes of both. -/
theorem encodeRange_eq_slice_pages :
    let c : Codec := { catalog := { schema := pagesSchema } }
    let v : Value := .overlay (.zero 32) (some (.list [.uint 1, .bigUint 70000, .uint 3, .uint 4]))
    ((encode 3 (.list [.uint 3, .uint 4])).run c).1 = .ok [3, 0, 4, 0] ∧
      ((encodeRange 2 v 2 2).run c).1 = .ok [3, 0, 4, 0] ∧
      ((encodeRange 2 v 4 0xffffffffffffffff).run c).1 =
        .error (.encode (.rangeOutOfBounds "Pages" 4 0xffffffffffffffff 4)) ∧
      ((encode 2 (.list [.uint 3, .uint 4])).run c).1 = .ok [3, 0, 4, 0] ∧
      ((encodeRange 2 (.list [.uint 3, .uint 4]) 1 1).run c).1 = .ok [4, 0] := by
  intro c v
  have travels : c.catalog.schema.TravelsAs 2 [("Pages", .ok)] 1 := .link rfl (.target rfl nofun)
  have declared : c.catalog.schema.declaration? 1 =
      some (.sequence 0 (.bounded (.literal 2))) := rfl
  have unbounded : ((encode 3 (.list [.uint 3, .uint 4])).run c).1 = .ok [3, 0, 4, 0] := by
    decide +kernel
  have whole : ((encode 2 (.list [.uint 3, .uint 4])).run c).1 = .ok [3, 0, 4, 0] := by
    decide +kernel
  obtain ⟨f, resolved, has, has'⟩ : ∃ f,
      c.catalog.format (c.catalog.schema.descriptor 2) = .ok f ∧
      f.Elements v [.uint 1, .bigUint 70000, .uint 3, .uint 4] ∧
      f.Elements (.list [.uint 3, .uint 4]) [.uint 3, .uint 4] :=
    ⟨_, rfl, ⟨_, rfl, rfl⟩, _, rfl, rfl⟩
  obtain ⟨within, -, -⟩ :=
    encodeRange_eq_slice wellFormed_pages .start .start travels declared resolved has 2 2
  obtain ⟨-, beyond, -⟩ := encodeRange_eq_slice wellFormed_pages .start .start travels declared
    resolved has 4 0xffffffffffffffff
  obtain ⟨-, -, fixed⟩ :=
    encodeRange_eq_slice wellFormed_pages .start .start travels declared resolved has' 1 1
  refine ⟨unbounded, ((within (by decide) _).2 3 rfl).mpr unbounded, beyond (by decide), whole, ?_⟩
  exact (fixed 2 _ (by decide +kernel) whole).1 (by decide)

end Codec

end SimpleSerialize
