/-
Hashing accepts what writing accepts.

The two walks over a value make the same checks in the same order.  Writing makes one more: offsets
have to fit into four bytes.  `Format.StopsAtOffset` says that a value is refused for that reason and
no other; there is no room for such values in memory, but nothing in the walks excludes them.  Main
statements:

* `Layout.verdict_place`: short of an offset that is too large, children are placed in a layout
  exactly if they can be written one by one;
* `Format.encode_of_stopsAtOffset`: how writing fails at an offset;
* `Format.verdict_root`: everywhere else hashing fails as writing does;
* `Codec.root_accepts`: the same of codecs.
-/
import SimpleSerialize.Proofs.RootOfBytes
import SimpleSerialize.Proofs.Writing

namespace SimpleSerialize

/-! ### Success and failure -/

section Verdict

variable {ε α β γ : Type}

/-- What is left of a computation when its result is forgotten: that it succeeds, or how it fails. -/
def verdict (x : Except ε α) : Except ε Unit := x.map fun _ => ()

theorem verdict_eq_ok {x : Except ε α} : verdict x = .ok () ↔ ∃ a, x = .ok a := by
  rw [verdict, map_eq_ok]
  exact exists_congr fun a => and_iff_left rfl

theorem verdict_eq_error {x : Except ε α} {e : ε} : verdict x = .error e ↔ x = .error e :=
  map_eq_error

theorem verdict_eq_iff {x : Except ε α} {y : Except ε β} :
    verdict x = verdict y ↔
      ((∃ a, x = .ok a) ↔ ∃ b, y = .ok b) ∧ ∀ e, x = .error e ↔ y = .error e := by
  constructor
  · intro same
    refine ⟨?_, fun e => ?_⟩
    · rw [← verdict_eq_ok, same, verdict_eq_ok]
    · rw [← verdict_eq_error, same, verdict_eq_error]
  · rintro ⟨accepts, fails⟩
    cases h : verdict y with
    | ok done => exact verdict_eq_ok.mpr (accepts.mpr (verdict_eq_ok.mp h))
    | error e => exact verdict_eq_error.mpr ((fails e).mpr (verdict_eq_error.mp h))

/-- A last step that cannot fail does not count. -/
theorem verdict_bind_pure {x : Except ε α} (g : α → β) :
    verdict (x >>= fun a => pure (g a)) = verdict x := by
  cases x <;> rfl

theorem verdict_bind_congr {x : Except ε α} {next : α → Except ε β} {next' : α → Except ε γ}
    (rest : ∀ a, x = .ok a → verdict (next a) = verdict (next' a)) :
    verdict (x >>= next) = verdict (x >>= next') := by
  cases x with
  | error e => rfl
  | ok a => exact rest a rfl

variable {step : α → Except ε β} {step' : α → Except ε γ} {as before after : List α} {a : α}

/-- Two steps fail alike on a list if they do on every item that they can reach. -/
theorem verdict_mapM_congr
    (each : ∀ before a after, as = before ++ a :: after →
      (∀ b ∈ before, ∃ c, step b = .ok c) → verdict (step' a) = verdict (step a)) :
    verdict (as.mapM step') = verdict (as.mapM step) := by
  induction as with
  | nil => rfl
  | cons a as ih =>
    have head : verdict (step' a) = verdict (step a) :=
      each [] a as rfl fun _ mem => nomatch mem
    rw [List.mapM_cons, List.mapM_cons]
    cases first : step a with
    | error e =>
      rw [((verdict_eq_iff.mp head).2 e).mpr first]
      rfl
    | ok b =>
      obtain ⟨c, first'⟩ := (verdict_eq_iff.mp head).1.mpr ⟨b, first⟩
      have tail := ih fun before a' after split reached => by
        refine each (a :: before) a' after (by rw [split, List.cons_append]) ?_
        exact List.forall_mem_cons.mpr ⟨⟨b, first⟩, reached⟩
      rw [first', ok_bind, ok_bind, verdict_bind_pure, verdict_bind_pure, tail]

/-- The first item that a step fails on decides. -/
theorem mapM_eq_error_of_first {e : ε} (reached : ∀ b ∈ before, ∃ c, step b = .ok c)
    (failed : step a = .error e) : (before ++ a :: after).mapM step = .error e := by
  induction before with
  | nil =>
    rw [List.nil_append, List.mapM_cons, failed]
    rfl
  | cons b before ih =>
    obtain ⟨⟨c, first⟩, reached⟩ := List.forall_mem_cons.mp reached
    rw [List.cons_append, List.mapM_cons, first, ok_bind, ih reached]
    rfl

end Verdict

/-! ### Offsets that are too large -/

namespace Layout

variable {shape : String} {position : Nat} {children : List (Option Nat × Except EncodeError Bytes)}

/-- When children are placed, an offset comes out too large before any of them fails. -/
def Overflows : (position : Nat) → List (Option Nat × Except EncodeError Bytes) → Prop
  | _, [] => False
  | position, (some _, body) :: rest => ∃ bytes, body = .ok bytes ∧ Overflows position rest
  | position, (none, body) :: rest =>
    maxOffset < position ∨ ∃ bytes, body = .ok bytes ∧ Overflows (position + bytes.length) rest

theorem place_of_overflows (beyond : Overflows position children) :
    ∃ offset, maxOffset < offset ∧
      place shape position children = .error (.maxSize shape (.tooLong maxOffset offset)) := by
  induction children generalizing position with
  | nil => cases beyond
  | cons child rest ih =>
    obtain ⟨size, body⟩ := child
    cases size with
    | some width =>
      obtain ⟨bytes, rfl, beyond⟩ := beyond
      obtain ⟨offset, large, failed⟩ := ih beyond
      exact ⟨offset, large, by rw [place, ok_bind, failed]; rfl⟩
    | none =>
      rw [place]
      by_cases low : position ≤ maxOffset
      · obtain large | ⟨bytes, rfl, beyond⟩ := beyond
        · exact absurd low (Nat.not_le_of_lt large)
        · obtain ⟨offset, large, failed⟩ := ih beyond
          exact ⟨offset, large, by rw [if_pos low, ok_bind, failed]; rfl⟩
      · exact ⟨position, Nat.lt_of_not_le low, if_neg low⟩

/-- Short of that, placing children is writing them one by one. -/
theorem verdict_place (within : ¬Overflows position children) :
    verdict (place shape position children) = verdict (children.mapM (·.2)) := by
  induction children generalizing position with
  | nil => rfl
  | cons child rest ih =>
    obtain ⟨size, body⟩ := child
    rw [List.mapM_cons]
    cases size with
    | some width =>
      rw [place]
      cases body with
      | error e => rfl
      | ok bytes =>
        have below : ¬Overflows position rest := fun beyond => within ⟨bytes, rfl, beyond⟩
        rw [ok_bind, ok_bind, verdict_bind_pure, verdict_bind_pure, ih below]
    | none =>
      have low : position ≤ maxOffset := Nat.le_of_not_lt fun large => within (.inl large)
      rw [place, if_pos low]
      cases body with
      | error e => rfl
      | ok bytes =>
        have below : ¬Overflows (position + bytes.length) rest :=
          fun beyond => within (.inr ⟨bytes, rfl, beyond⟩)
        rw [ok_bind, ok_bind, verdict_bind_pure, verdict_bind_pure, ih below]

end Layout

/-! ### Both walks -/

namespace Format

open Layout

variable {hasher : Hasher} {f : Format} {v : Value} {children : List (Format × Value)}

/-- Children as they are laid out. -/
def encodings (children : List (Format × Value)) : List (Option Nat × Except EncodeError Bytes) :=
  children.map fun p => (p.1.fixedSize, p.1.encode p.2)

/-- Writing the value comes to an offset that is too large, in its own layout or in that of a part,
before anything else goes wrong. -/
inductive StopsAtOffset : Format → Value → Prop
  | offset {f : Format} {v : Value} {children : List (Format × Value)} : f.Children v children →
    Overflows (fixedLength ((encodings children).map (·.1))) (encodings children) →
    StopsAtOffset f v
  | child {f g : Format} {v w : Value} {before after : List (Format × Value)} :
    f.Children v (before ++ (g, w) :: after) →
    (∀ p ∈ before, ∃ bytes, p.1.encode p.2 = .ok bytes) → StopsAtOffset g w → StopsAtOffset f v
  | body {head : Heading} {a : Handler UnionAccessor} {nullable : Bool} {variants : List Format}
    {g : Format} {v w body : Value} {selector : UInt32} : v.concrete = some w →
    a.selector w = .ok selector → Variant.select nullable variants selector = some (.body g) →
    a.body? w = some body → StopsAtOffset g body →
    StopsAtOffset (.union head a nullable variants) v

variable {shape : String}

/-- Short of an offset that is too large, children are composed if they are written one by one. -/
theorem verdict_compose
    (within : ¬Overflows (fixedLength ((encodings children).map (·.1))) (encodings children)) :
    verdict (compose shape (encodings children)) =
      verdict (children.mapM fun p => p.1.encode p.2) := by
  rw [compose, verdict_bind_pure, verdict_place within, encodings, List.mapM_map]
  rfl

/-- How writing fails at an offset. -/
theorem encode_of_stopsAtOffset (stops : f.StopsAtOffset v) :
    ∃ name offset, maxOffset < offset ∧
      f.encode v = .error (.maxSize name (.tooLong maxOffset offset)) := by
  have overflow {f : Format} {v : Value} {children : List (Format × Value)}
      (has : f.Children v children)
      (beyond : Overflows (fixedLength ((encodings children).map (·.1))) (encodings children)) :
      ∃ name offset, maxOffset < offset ∧
        f.encode v = .error (.maxSize name (.tooLong maxOffset offset)) := by
    obtain ⟨offset, large, failed⟩ := place_of_overflows beyond
    refine ⟨f.name, offset, large, (encode_of_children has).trans ?_⟩
    change compose f.name (encodings children) = _
    rw [compose, failed]
    rfl
  induction stops with
  | offset has beyond => exact overflow has beyond
  | @child f g v w before after has reached _ ih =>
    -- The layout may stop before it comes to the child.
    by_cases beyond : Overflows (fixedLength ((encodings (before ++ (g, w) :: after)).map (·.1)))
        (encodings (before ++ (g, w) :: after))
    · exact overflow has beyond
    · obtain ⟨name, offset, large, failed⟩ := ih
      refine ⟨name, offset, large, (encode_of_children has).trans ?_⟩
      refine ((verdict_eq_iff.mp (verdict_compose beyond)).2 _).mpr ?_
      exact mapM_eq_error_of_first reached failed
  | @body head a nullable variants g v w body selector shown hs chosen hbody _ ih =>
    obtain ⟨name, offset, large, failed⟩ := ih
    refine ⟨name, offset, large, ?_⟩
    rw [encode, seen_eq_ok.mpr shown, ok_bind, hs, ok_bind, encoders_eq, Variant.select_map, chosen]
    simp only [Option.map_some, Variant.map, bodyOf_eq_ok.mpr hbody, ok_bind, failed]
    rfl

/-- The children of a value without overlays have none. -/
theorem bare_children (bare : v.Bare) (has : f.Children v children) : ∀ p ∈ children, p.2.Bare := by
  cases has with
  | list shown hitems =>
    obtain rfl := eq_of_shown bare shown
    intro p mem
    obtain ⟨item, inside, rfl⟩ := List.mem_map.mp mem
    exact bare_items bare hitems item inside
  | container shown hvalues =>
    obtain rfl := eq_of_shown bare shown
    obtain rfl := ContainerAccessor.fieldsOf_eq_ok.mp hvalues
    exact fun p mem => bare.inside _ (List.of_mem_zip mem).2

/-- If the parts of a shape are hashed as they are written, so are the children of a composite. -/
theorem verdict_children (bare : v.Bare) (free : ¬f.StopsAtOffset v) (has : f.Children v children)
    (below : ∀ g ∈ f.parts, ∀ w, w.Bare → ¬g.StopsAtOffset w →
      verdict (g.root hasher w) = verdict (g.encode w)) :
    verdict (children.mapM fun p => p.1.root hasher p.2) =
      verdict (compose shape (encodings children)) := by
  rw [verdict_compose fun beyond => free (.offset has beyond)]
  refine verdict_mapM_congr fun before p after split reached => ?_
  have mem : p ∈ children := by
    rw [split]
    exact List.mem_append_right _ List.mem_cons_self
  refine below p.1 (has.mem_parts p mem) p.2 (bare_children bare has p mem) fun stops => ?_
  rw [split] at has
  exact free (.child has reached stops)

/-- Where writing does not stop at an offset, hashing a value without overlays fails as writing it
does. -/
theorem verdict_root (bare : v.Bare) (free : ¬f.StopsAtOffset v) :
    verdict (f.root hasher v) = verdict (f.encode v) := by
  have shown := concrete_of_root? bare.here
  induction f generalizing v with
  | basic head a =>
    simp only [root, bare.here, encode, seen_eq_ok.mpr shown, ok_bind]
    exact verdict_bind_pure _
  | list head a regime element ih =>
    simp only [root, bare.here, encode, seen_eq_ok.mpr shown, ok_bind]
    refine verdict_bind_congr fun items hitems => verdict_bind_congr fun done checked => ?_
    have has : (list head a regime element).Children v (items.map fun item => (element, item)) :=
      .list shown hitems (Regime.check_eq_ok.mp checked)
    have laid : (items.map fun item => (element.fixedSize, element.encode item)) =
        encodings (items.map fun item => (element, item)) := by
      rw [encodings, List.map_map]
      rfl
    rw [laid]
    split
    · -- Elements that share chunks are written, not hashed.
      rw [verdict_compose fun beyond => free (.offset has beyond), List.mapM_map]
      exact verdict_bind_pure _
    · rw [← @verdict_children hasher _ _ _ _ bare free has
        (List.forall_mem_singleton.mpr fun w bare free => ih bare free (concrete_of_root? bare.here)),
        List.mapM_map]
      exact verdict_bind_pure _
  | union head a nullable variants ih =>
    simp only [root, bare.here, encode, seen_eq_ok.mpr shown, ok_bind, rooters_eq, encoders_eq,
      Variant.select_map]
    refine verdict_bind_congr fun selector hs => ?_
    cases chosen : Variant.select nullable variants selector with
    | none => rfl
    | some variant =>
      cases variant with
      | empty => rfl
      | body g =>
        simp only [Option.map_some, Variant.map]
        refine verdict_bind_congr fun w hw => ?_
        have hbody := bodyOf_eq_ok.mp hw
        have inside : w.Bare := by
          obtain ⟨body, rfl⟩ := UnionAccessor.selector_eq_ok.mp hs
          obtain rfl : body = some w := hbody
          exact bare.inside w List.mem_cons_self
        rw [verdict_bind_pure, verdict_bind_pure]
        exact ih g (Variant.mem_of_select chosen) inside
          (fun stops => free (.body shown hs chosen hbody stops)) (concrete_of_root? inside.here)
  | container head a fields size ih =>
    simp only [root, bare.here, encode, seen_eq_ok.mpr shown, ok_bind, rooters_eq, encoders_eq,
      fieldChildren_eq]
    refine verdict_bind_congr fun values hvalues => verdict_bind_congr fun done arity => ?_
    have has : (container head a fields size).Children v (fields.zip values) :=
      .container shown hvalues (checkArity_eq_ok.mp arity)
    have below := @verdict_children hasher _ _ _ head.name bare free has fun g mem w bare free =>
      ih g mem bare free (concrete_of_root? bare.here)
    rw [verdict_bind_pure, List.zip_map_left, List.mapM_map]
    exact below

end Format

/-! ### Codecs -/

namespace Codec

variable {catalog : Catalog} {hasher : Hasher} {c c' : Codec} {shape : ShapeId} {f : Format}
  {v : Value}

/-- A value without overlays has a root exactly if it can be written, and what is wrong with it
otherwise is the same, unless writing it stops at an offset beyond four bytes. -/
theorem root_accepts (session : Session catalog hasher c) (session' : Session catalog hasher c')
    (resolved : catalog.format (catalog.schema.descriptor shape) = .ok f) (bare : v.Bare) :
    (f.StopsAtOffset v → ∃ name offset, 2 ^ 32 - 1 < offset ∧
      ((encode shape v).run c').1 =
        .error (.encode (.maxSize name (.tooLong (2 ^ 32 - 1) offset)))) ∧
    (¬f.StopsAtOffset v →
      ((∃ r, ((root shape v).run c).1 = .ok r) ↔ ∃ bytes, ((encode shape v).run c').1 = .ok bytes) ∧
      ∀ e, ((root shape v).run c).1 = .error e ↔ ((encode shape v).run c').1 = .error e) := by
  have hashed : ((root shape v).run c).1 = (f.root hasher v).mapError .encode := by
    rw [root, run_withFormat session resolved]
  have written : ((encode shape v).run c').1 = (f.encode v).mapError .encode := by
    rw [encode, run_withFormat session' resolved]
  rw [hashed, written]
  refine ⟨fun stops => ?_, fun free => ?_⟩
  · obtain ⟨name, offset, large, failed⟩ := Format.encode_of_stopsAtOffset stops
    exact ⟨name, offset, large, by rw [failed]; rfl⟩
  · obtain ⟨accepts, fails⟩ := verdict_eq_iff.mp (@Format.verdict_root hasher f v bare free)
    simp only [mapError_eq_ok, mapError_eq_error, accepts, fails, true_and, implies_true]

/-- A record with a number that is too large for its shape, and one without. -/
theorem root_accepts_record :
    let c : Codec := { catalog := { schema := recordSchema .ok } }
    let wide : Value := .container [.bigUint 2, .list [.bigUint 1, .bigUint 70000]]
    let fine : Value := .container [.bigUint 2, .list [.bigUint 1, .bigUint 7]]
    let e : CodecError := .encode (.integerOverflow "uint16" 2)
    ((encode 3 wide).run c).1 = .error e ∧ ((root 3 wide).run c).1 = .error e ∧
      ∃ r, ((root 3 fine).run c).1 = .ok r := by
  intro c wide fine e
  have number (n : Nat) : (Value.bigUint n).Bare := .node rfl fun _ inside => nomatch inside
  have record (n : Nat) : (Value.container [.bigUint 2, .list [.bigUint 1, .bigUint n]]).Bare := by
    refine .node rfl fun part mem => ?_
    rcases List.mem_pair.mp mem with rfl | rfl
    · exact number 2
    · refine .node rfl fun part mem => ?_
      rcases List.mem_pair.mp mem with rfl | rfl
      · exact number 1
      · exact number n
  have refused : ((encode 3 wide).run c).1 = .error (.encode (.integerOverflow "uint16" 2)) := by
    decide +kernel
  have written : ((encode 3 fine).run c).1 = .ok [2, 0, 6, 0, 0, 0, 1, 0, 7, 0] := by decide +kernel
  obtain ⟨stops, free⟩ := root_accepts .start .start (format_record .ok) (record 70000)
  obtain ⟨stops', free'⟩ := root_accepts .start .start (format_record .ok) (record 7)
  refine ⟨refused, ((free fun offset => ?_).2 e).mpr refused,
    (free' fun offset => ?_).1.mpr ⟨_, written⟩⟩
  · obtain ⟨_, _, -, failed⟩ := stops offset
    cases refused.symm.trans failed
  · obtain ⟨_, _, -, failed⟩ := stops' offset
    cases written.symm.trans failed

end Codec

end SimpleSerialize
