/-
The root of some bytes is the root of the value that was written.

A value without overlays has the root of its normal form: packed elements are written out, so that
they only depend on their bytes, and everything else is hashed part by part.  Main statements:

* `Format.root_normal`: a value that can be written has a root, and its normal form has the same;
* `Codec.root_eq_rootOfBytes`: the same of a codec, by way of the bytes.
-/
import SimpleSerialize.Proofs.RoundTrip

namespace SimpleSerialize

/-- The normal form of a basic value has the same bytes. -/
theorem BasicForm.encode_normal {form : BasicForm} {shape : String} {v : Value} {bytes : Bytes}
    (h : form.encode shape v = .ok bytes) : form.encode shape (form.normal v) = .ok bytes := by
  have back : form.decode shape bytes = .ok (form.normal v) := decode_of_encode h
  exact encode_eq_of_decode (length_of_encode h) back

namespace Format

variable {hasher : Hasher} {f : Format} {v : Value} {bytes : Bytes}

/-- Elements that share chunks are basic, so that their normal forms have the same bytes. -/
theorem encode_normal_of_packable (packable : f.packable) (h : f.encode v = .ok bytes) :
    f.encode (f.normal v) = .ok bytes := by
  cases f with
  | basic head a =>
    have normal := (isNormal_normal h).concrete
    obtain ⟨w, shown, encoded⟩ := encode_basic_eq_ok.mp h
    rw [normal_basic shown] at normal ⊢
    exact encode_basic_eq_ok.mpr ⟨_, normal, BasicForm.encode_normal encoded⟩
  | _ => cases packable

/-- A value without overlays shows itself. -/
theorem eq_of_shown {w : Value} (bare : v.Bare) (shown : v.concrete = some w) : v = w :=
  Option.some.inj ((concrete_of_root? bare.here).symm.trans shown)

/-- The elements of a sequence without overlays have none. -/
theorem bare_items {a : Handler ListAccessor} {items : List Value} (bare : v.Bare)
    (h : a.items v = .ok items) : ∀ item ∈ items, item.Bare := by
  rcases ListAccessor.items_eq_ok.mp h with rfl | ⟨-, bs, rfl, rfl⟩
  · exact bare.inside
  · intro item mem
    obtain ⟨b, -, rfl⟩ := List.mem_map.mp mem
    exact .node rfl fun _ inside => nomatch inside

/-- The elements of the normal form of a sequence are the normal forms of its elements. -/
theorem items_normal {head : Heading} {a : Handler ListAccessor} {regime : Regime}
    {element : Format} {items : List Value} {bodies : List Bytes}
    (isByte : a.base = .byteSequence → element.IsByte) (shown : v.concrete = some v)
    (hitems : a.items v = .ok items)
    (each : List.Forall₂ (fun item body => element.encode item = .ok body) items bodies) :
    a.items ((list head a regime element).normal v) = .ok (items.map element.normal) :=
  (ListAccessor.items_of_create (create_of_encode isByte shown hitems each)).2

/-- The tree over some elements is the tree over their normal forms. -/
theorem elementsRoot_normal {regime : Regime} {items : List Value} {bodies : List Bytes}
    (each : List.Forall₂ (fun item body => f.encode item = .ok body) items bodies)
    (below : ∀ item ∈ items, ∀ body, f.encode item = .ok body →
      ∃ r, f.root hasher item = .ok r ∧ f.root hasher (f.normal item) = .ok r) :
    ∃ tree, ElementsRoot hasher regime f items tree ∧
      ElementsRoot hasher regime f (items.map f.normal) tree := by
  unfold ElementsRoot
  split
  · -- Packed elements only contribute their bytes.
    rename_i packable
    refine ⟨_, ⟨bodies, each, rfl⟩, bodies, ?_, rfl⟩
    rw [List.forall₂_map_left_iff]
    exact each.imp fun _ _ encoded => encode_normal_of_packable packable encoded
  · have written := forall_left each fun item body encoded => Exists.intro body encoded
    obtain ⟨roots, both⟩ := exists_forall₂ fun item mem => by
      obtain ⟨body, encoded⟩ := written item mem
      exact below item mem body encoded
    refine ⟨_, ⟨roots, both.imp fun _ _ h => h.1, rfl⟩, roots, ?_, rfl⟩
    rw [List.forall₂_map_left_iff]
    exact both.imp fun _ _ h => h.2

/-- A value that can be written has a root, and its normal form has the same. -/
theorem root_normal (lawful : f.Lawful) (bare : v.Bare) (h : f.encode v = .ok bytes) :
    ∃ r, f.root hasher v = .ok r ∧ f.root hasher (f.normal v) = .ok r := by
  induction f generalizing v bytes with
  | basic head a =>
    have normal := (isNormal_normal h).root?_eq
    obtain ⟨w, shown, encoded⟩ := encode_basic_eq_ok.mp h
    obtain rfl := eq_of_shown bare shown
    refine ⟨_, (root_basic_eq_ok bare.here).mpr ⟨bytes, encoded, rfl⟩, ?_⟩
    refine (root_basic_eq_ok normal).mpr ⟨bytes, ?_, rfl⟩
    rw [normal_basic shown]
    exact BasicForm.encode_normal encoded
  | list head a regime element ih =>
    have normal := (isNormal_normal h).root?_eq
    obtain ⟨w, items, bodies, shown, hitems, admits, each, -⟩ := encode_list_eq_ok.mp h
    obtain rfl := eq_of_shown bare shown
    have below : element.Lawful := lawful.inside element List.mem_cons_self
    obtain ⟨tree, hv, hnormal⟩ := @elementsRoot_normal hasher _ regime _ _ each
      fun item mem body encoded => ih below (bare_items bare hitems item mem) encoded
    refine ⟨_, (root_list_eq_ok bare.here).mpr ⟨items, tree, hitems, admits, hv, rfl⟩, ?_⟩
    have hitems' : a.items ((list head a regime element).normal v) = _ :=
      items_normal lawful.here.2 shown hitems each
    rw [← List.length_map element.normal] at admits
    refine (root_list_eq_ok normal).mpr ⟨_, tree, hitems', admits, hnormal, ?_⟩
    rw [List.length_map]
  | union head a nullable variants ih =>
    have normal := (isNormal_normal h).root?_eq
    obtain ⟨w, selector, rest, shown, hs, -, chosen⟩ := encode_union_eq_ok.mp h
    obtain rfl := eq_of_shown bare shown
    obtain ⟨body, rfl⟩ := UnionAccessor.selector_eq_ok.mp hs
    rcases chosen with ⟨chosen, -⟩ | ⟨f, w, chosen, hbody, encoded⟩
    · -- Under the empty case a body is not looked at, whether the value has one or not.
      rw [normal_empty chosen shown]
      refine ⟨_, (root_union_eq_ok bare.here).mpr ⟨selector, _, hs, rfl, .inl ⟨chosen, rfl⟩⟩, ?_⟩
      exact (root_union_eq_ok rfl).mpr ⟨selector, _, rfl, rfl, .inl ⟨chosen, rfl⟩⟩
    · obtain rfl : body = some w := hbody
      have mem := Variant.mem_of_select chosen
      obtain ⟨r, hr, hnormal⟩ := ih f mem (lawful.inside f mem)
        (bare.inside w List.mem_cons_self) encoded
      rw [normal_body chosen shown]
      refine ⟨_, (root_union_eq_ok bare.here).mpr
        ⟨selector, r, hs, rfl, .inr ⟨f, w, chosen, rfl, hr⟩⟩, ?_⟩
      exact (root_union_eq_ok rfl).mpr
        ⟨selector, r, rfl, rfl, .inr ⟨f, f.normal w, chosen, rfl, hnormal⟩⟩
  | container head a fields size ih =>
    obtain ⟨w, values, bodies, shown, hvalues, each, -⟩ := encode_container_eq_ok.mp h
    obtain rfl := eq_of_shown bare shown
    obtain rfl := ContainerAccessor.fieldsOf_eq_ok.mp hvalues
    obtain ⟨roots, both⟩ := each.exists_right fun f mem value inside body encoded =>
      ih f mem (lawful.inside f mem) (bare.inside value inside) encoded
    rw [normal_container shown]
    refine ⟨_, (root_container_eq_ok bare.here).mpr ⟨values, roots, rfl, ?_, rfl⟩,
      (root_container_eq_ok rfl).mpr ⟨_, roots, rfl, ?_, rfl⟩⟩
    · exact both.imp fun _ _ _ _ h => h.1
    · exact (both.zipWith fun _ _ _ _ h => h.2).swap

end Format

/-! ### Codecs -/

namespace Codec

variable {catalog : Catalog} {hasher : Hasher} {c c' : Codec} {shape : ShapeId} {f : Format}
  {bytes : Bytes} {v : Value}

/-- Where every link leaves values alone and the elements of lists have bytes, a value without
overlays that can be written has a root, which is the root of its bytes and the root of every other
form of the value. -/
theorem root_eq_rootOfBytes (session : Session catalog hasher c)
    (session' : Session catalog hasher c')
    (resolved : catalog.format (catalog.schema.descriptor shape) = .ok f)
    (identity : f.AllLinks Rebuild.Identity) (countable : f.Countable) (bare : v.Bare)
    (encoded : ((encode shape v).run c).1 = .ok bytes) :
    ∃ r, ((root shape v).run c').1 = .ok r ∧ ((rootOfBytes shape bytes).run c').1 = .ok r ∧
      ∀ w others, w.Bare → ((encode shape w).run c).1 = .ok others → f.normal w = f.normal v →
        ((root shape w).run c').1 = .ok r := by
  have lawful := Catalog.lawful_of_format resolved
  have written : f.encode v = .ok bytes := (encode_eq_ok session resolved).mp encoded
  have read := Format.decode_of_encode lawful countable identity written
  obtain ⟨r, hv, hnormal⟩ := Format.root_normal lawful bare written
  refine ⟨r, (root_eq_ok session' resolved).mpr hv, ?_, fun w others bare' encoded' same => ?_⟩
  · exact (rootOfBytes_eq_ok session' resolved).mpr ⟨_, read, hnormal⟩
  · obtain ⟨q, hw, hnormal'⟩ := @Format.root_normal hasher _ _ _ lawful bare'
      ((encode_eq_ok session resolved).mp encoded')
    rw [same, hnormal] at hnormal'
    cases hnormal'
    exact (root_eq_ok session' resolved).mpr hw

theorem root_eq_rootOfBytes_record :
    let c : Codec := { catalog := { schema := recordSchema .ok } }
    let v : Value := .container [.bigUint 2, .list [.bigUint 1, .uint 3]]
    let w : Value := .container [.uint 2, .list [.uint 1, .uint 3]]
    ∃ r, ((root 3 v).run c).1 = .ok r ∧ ((root 3 w).run c).1 = .ok r ∧
      ((rootOfBytes 3 [2, 0, 6, 0, 0, 0, 1, 0, 3, 0]).run c).1 = .ok r := by
  intro c v w
  have number (n : Nat) : (Value.bigUint n).Bare := .node rfl fun _ inside => nomatch inside
  have word (n : UInt64) : (Value.uint n).Bare := .node rfl fun _ inside => nomatch inside
  have record {count first second : Value} (hc : count.Bare) (hf : first.Bare) (hs : second.Bare) :
      (Value.container [count, .list [first, second]]).Bare := by
    refine .node rfl fun part mem => ?_
    rcases List.mem_pair.mp mem with rfl | rfl
    · exact hc
    · refine .node rfl fun part mem => ?_
      rcases List.mem_pair.mp mem with rfl | rfl
      · exact hf
      · exact hs
  have encoded (u : Value) (h : (recordFormat .ok).encode u = .ok [2, 0, 6, 0, 0, 0, 1, 0, 3, 0]) :
      ((encode 3 u).run c).1 = .ok [2, 0, 6, 0, 0, 0, 1, 0, 3, 0] :=
    (encode_eq_ok .start (format_record .ok)).mpr h
  obtain ⟨r, hv, hbytes, others⟩ := root_eq_rootOfBytes .start .start (format_record .ok)
    (allLinks_record fun _ => rfl) (countable_record .ok) (record (number 2) (number 1) (word 3))
    (encoded v (by decide +kernel))
  refine ⟨r, hv, ?_, hbytes⟩
  exact others w _ (record (word 2) (word 1) (word 3)) (encoded w (by decide +kernel))
    (by decide +kernel)

end Codec

end SimpleSerialize
