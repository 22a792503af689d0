/-
Values that share their bytes.

Most of a value can be told from its bytes.  What cannot is whether an integer is held as a word or
as a number of any size, and a sequence of bytes as a byte string or as a list; whether a union in
its empty case carries a body, which is not written; and how many elements a list has if they have
no bytes.  Main statements:

* `Format.alike_of_encode`: values with the same bytes are alike up to these differences;
* `Codec.alike_of_same_bytes`: the same, for what a codec writes.
-/
import SimpleSerialize.Proofs.RootOfBytes

namespace SimpleSerialize

variable {f : Format} {v w : Value} {bytes : Bytes}

/-- The number that an integer is, in whichever form it is held. -/
def Value.number? : Value → Option Nat
  | .uint n => some n.toNat
  | .bigUint n => some n
  | _ => none

namespace Format

/-- Two values of a format are the same but for the form in which integers and sequences of bytes
are held; if `loose`, also but for the bodies of unions in their empty case and for the number of
elements of lists whose elements have no bytes. -/
inductive Alike (loose : Prop) : Format → Value → Value → Prop
  | same {head : Heading} {a : Handler BasicForm} (v : Value) : Alike loose (.basic head a) v v
  | number {head : Heading} {a : Handler BasicForm} {v w : Value} {n : Nat} :
    v.number? = some n → w.number? = some n → Alike loose (.basic head a) v w
  | items {head : Heading} {a : Handler ListAccessor} {regime : Regime} {element : Format}
    {v w : Value} {xs ys : List Value} : a.items v = .ok xs → a.items w = .ok ys →
    xs.length = ys.length → (∀ x y, (x, y) ∈ xs.zip ys → Alike loose element x y) →
    Alike loose (.list head a regime element) v w
  | uncounted {head : Heading} {a : Handler ListAccessor} {limit : Option UInt64} {element : Format}
    {v w : Value} {xs ys : List Value} : loose → element.fixedSize = some 0 → a.items v = .ok xs →
    a.items w = .ok ys → (∀ x ∈ xs, ∀ y ∈ ys, Alike loose element x y) →
    Alike loose (.list head a (.list limit) element) v w
  | empty {head : Heading} {a : Handler UnionAccessor} {nullable : Bool} {variants : List Format}
    {selector : UInt32} {body body' : Option Value} :
    Variant.select nullable variants selector = some .empty → (loose ∨ body = body') →
    Alike loose (.union head a nullable variants) (.union selector body) (.union selector body')
  | body {head : Heading} {a : Handler UnionAccessor} {nullable : Bool} {variants : List Format}
    {selector : UInt32} {f : Format} {x y : Value} :
    Variant.select nullable variants selector = some (.body f) → Alike loose f x y →
    Alike loose (.union head a nullable variants) (.union selector (some x))
      (.union selector (some y))
  | fields {head : Heading} {a : Handler ContainerAccessor} {fields : List Format}
    {size : Option Nat} {xs ys : List Value} : Aligned (Alike loose) fields xs ys →
    Alike loose (.container head a fields size) (.container xs) (.container ys)

end Format

/-! ### Basic values -/

namespace BasicForm

variable {shape other : String} {width length : Nat}

theorem encode_bool_eq_ok :
    bool.encode shape v = .ok bytes ↔ ∃ b, v = .bool b ∧ bytes = [if b then 1 else 0] := by
  cases v <;> simp [encode, eq_comm]

theorem encode_uint_eq_ok :
    (uint width).encode shape v = .ok bytes ↔ ∃ n, v.number? = some n ∧
      n < LittleEndian.capacity width ∧ bytes = LittleEndian.encode width n := by
  cases v <;> simp [encode, encodeInteger_eq_ok, Value.number?]

theorem encode_bytes_eq_ok :
    (BasicForm.bytes length).encode shape v = .ok bytes ↔
      v = .bytes bytes ∧ bytes.length = length := by
  cases v with
  | bytes bs =>
    simp only [encode, Value.bytes.injEq]
    split <;> simp_all [eq_comm]
  | _ => simp [encode]

/-- A basic value is determined by its bytes, but for the form of an integer. -/
theorem alike_of_encode {form : BasicForm} (encoded : form.encode shape v = .ok bytes)
    (encoded' : form.encode other w = .ok bytes) :
    v = w ∨ ∃ n, v.number? = some n ∧ w.number? = some n := by
  cases form with
  | bool =>
    obtain ⟨b, rfl, rfl⟩ := encode_bool_eq_ok.mp encoded
    obtain ⟨b', rfl, same⟩ := encode_bool_eq_ok.mp encoded'
    cases b <;> cases b' <;> simp_all
  | uint width =>
    obtain ⟨n, hn, small, rfl⟩ := encode_uint_eq_ok.mp encoded
    obtain ⟨m, hm, small', same⟩ := encode_uint_eq_ok.mp encoded'
    have number : n = m := by
      rw [← LittleEndian.decode_encode small, same, LittleEndian.decode_encode small']
    exact .inr ⟨n, hn, number ▸ hm⟩
  | bytes length =>
    obtain ⟨rfl, -⟩ := encode_bytes_eq_ok.mp encoded
    exact .inl (encode_bytes_eq_ok.mp encoded').1.symm

end BasicForm

namespace Format

open Layout

/-! ### Formats -/

variable {head : Heading} {regime : Regime} {element : Format} {nullable : Bool}
  {variants fields : List Format} {size : Option Nat}

/-- A selector and what follows it are told apart. -/
theorem selectorBytes_append_inj {selector selector' : UInt32} {rest rest' : Bytes}
    (h : selectorBytes selector ++ rest = selectorBytes selector' ++ rest') :
    selector = selector' ∧ rest = rest' := by
  have same : selector = selector' := by
    rw [← ofNat_readOffset_selectorBytes selector rest, h, ofNat_readOffset_selectorBytes]
  subst same
  exact ⟨rfl, List.append_cancel_left h⟩

/-- The elements of a sequence are determined by its bytes, if they have any or their number is
known. -/
theorem elements_of_written {elements others : List Bytes} (admits : regime.Admits elements.length)
    (admits' : regime.Admits others.length) (fits : ∀ p ∈ elementParts size elements, p.Fits)
    (fits' : ∀ p ∈ elementParts size others, p.Fits) (counted : size = some 0 → regime.isVector)
    (inhabited : regime ≠ .vector 0) (written : Written (elementParts size elements) bytes)
    (written' : Written (elementParts size others) bytes) : elements = others := by
  have left := @elementWindows_of_written "" _ _ _ _ admits fits counted inhabited written
  have right := @elementWindows_of_written "" _ _ _ _ admits' fits' counted inhabited written'
  exact Except.ok.inj (left.symm.trans right)

/-- Values with the same bytes are alike. -/
theorem alike_of_encode (lawful : f.Lawful) (bare : v.Bare) (bare' : w.Bare)
    (encoded : f.encode v = .ok bytes) (encoded' : f.encode w = .ok bytes) : f.Alike True v w := by
  induction f generalizing v w bytes with
  | basic head a =>
    obtain ⟨_, shown, written⟩ := encode_basic_eq_ok.mp encoded
    obtain ⟨_, shown', written'⟩ := encode_basic_eq_ok.mp encoded'
    obtain rfl := eq_of_shown bare shown
    obtain rfl := eq_of_shown bare' shown'
    rcases BasicForm.alike_of_encode written written' with rfl | ⟨n, hn, hn'⟩
    · exact .same v
    · exact .number hn hn'
  | list head a regime element ih =>
    obtain ⟨_, xs, bodies, shown, hxs, admits, each, written⟩ := encode_list_eq_ok.mp encoded
    obtain ⟨_, ys, bodies', shown', hys, admits', each', written'⟩ := encode_list_eq_ok.mp encoded'
    obtain rfl := eq_of_shown bare shown
    obtain rfl := eq_of_shown bare' shown'
    have below : element.Lawful := lawful.inside element List.mem_cons_self
    have alike (x : Value) (hx : x ∈ xs) (y : Value) (hy : y ∈ ys) (body : Bytes)
        (left : element.encode x = .ok body) (right : element.encode y = .ok body) :
        element.Alike True x y :=
      ih below (bare_items bare hxs x hx) (bare_items bare' hys y hy) left right
    -- The bytes give the elements one by one, unless these have none and a list has any number.
    by_cases counted : element.fixedSize = some 0 → regime.isVector = true
    · have same : bodies = bodies' :=
        elements_of_written (each.length_eq ▸ admits) (each'.length_eq ▸ admits')
          (fits_of_each (each.imp fun _ _ => length_of_encode below))
          (fits_of_each (each'.imp fun _ _ => length_of_encode below)) counted lawful.here.1 written
          written'
      subst same
      obtain ⟨length, related⟩ := List.forall₂_iff_zip.mp (forall₂_of_common each each' alike)
      exact .items hxs hys length fun x y mem => related mem
    · obtain ⟨none, list⟩ := Classical.not_imp.mp counted
      cases regime with
      | vector length => exact absurd rfl list
      | list limit =>
        have empty {item : Value} {body : Bytes} (h : element.encode item = .ok body) :
            element.encode item = .ok [] := by
          rw [h, List.length_eq_zero_iff.mp (length_of_encode below h 0 none)]
        refine .uncounted trivial none hxs hys fun x hx y hy => alike x hx y hy [] ?_ ?_
        · exact forall_left each (fun _ _ => empty) x hx
        · exact forall_left each' (fun _ _ => empty) y hy
  | union head a nullable variants ih =>
    obtain ⟨_, selector, rest, shown, hs, rfl, chosen⟩ := encode_union_eq_ok.mp encoded
    obtain ⟨_, selector', rest', shown', hs', same, chosen'⟩ := encode_union_eq_ok.mp encoded'
    obtain rfl := eq_of_shown bare shown
    obtain rfl := eq_of_shown bare' shown'
    obtain ⟨rfl, rfl⟩ := selectorBytes_append_inj same
    obtain ⟨body, rfl⟩ := UnionAccessor.selector_eq_ok.mp hs
    obtain ⟨body', rfl⟩ := UnionAccessor.selector_eq_ok.mp hs'
    rcases chosen with ⟨chosen, -⟩ | ⟨f, x, chosen, hbody, read⟩
    · exact .empty chosen (.inl trivial)
    · rcases chosen' with ⟨chosen', -⟩ | ⟨f', y, chosen', hbody', read'⟩
      · cases chosen.symm.trans chosen'
      · cases chosen.symm.trans chosen'
        obtain rfl : body = some x := hbody
        obtain rfl : body' = some y := hbody'
        have mem := Variant.mem_of_select chosen
        exact .body chosen (ih f mem (lawful.inside f mem) (bare.inside x List.mem_cons_self)
          (bare'.inside y List.mem_cons_self) read read')
  | container head a fields size ih =>
    obtain ⟨_, xs, bodies, shown, hxs, each, written⟩ := encode_container_eq_ok.mp encoded
    obtain ⟨_, ys, bodies', shown', hys, each', written'⟩ := encode_container_eq_ok.mp encoded'
    obtain rfl := eq_of_shown bare shown
    obtain rfl := eq_of_shown bare' shown'
    obtain rfl := ContainerAccessor.fieldsOf_eq_ok.mp hxs
    obtain rfl := ContainerAccessor.fieldsOf_eq_ok.mp hys
    have found := @windows_of_fields _ "" _ _ _ (each.imp fun f mem _ _ =>
      length_of_encode (lawful.inside f mem)) written
    have found' := @windows_of_fields _ "" _ _ _ (each'.imp fun f mem _ _ =>
      length_of_encode (lawful.inside f mem)) written'
    -- Cutting the same bytes by the same fields gives the same windows.
    obtain rfl : bodies = bodies' := Except.ok.inj (found.symm.trans found')
    refine .fields (each.of_common each' fun f mem x hx y hy body read read' => ?_)
    exact ih f mem (lawful.inside f mem) (bare.inside x hx) (bare'.inside y hy) read read'

end Format

/-! ### Codecs -/

/-- A union with an empty case, and a list of elements that have no bytes. -/
def unwrittenSchema : Schema where
  entries := [
    ⟨"uint8", .basic (.uint 1)⟩,
    ⟨"Bytes0", .basic (.bytes 0)⟩,
    ⟨"Union[None,uint8]", .union [0] true⟩,
    ⟨"List[Bytes0]", .sequence 1 .unbounded⟩]

namespace Codec

variable {catalog : Catalog} {hasher : Hasher} {c c' : Codec} {shape : ShapeId}

/-- Values without overlays that a codec writes as the same bytes are alike. -/
theorem alike_of_same_bytes (session : Session catalog hasher c)
    (session' : Session catalog hasher c')
    (resolved : catalog.format (catalog.schema.descriptor shape) = .ok f) (bare : v.Bare)
    (bare' : w.Bare) (encoded : ((encode shape v).run c).1 = .ok bytes)
    (encoded' : ((encode shape w).run c').1 = .ok bytes) : f.Alike True v w :=
  Format.alike_of_encode (Catalog.lawful_of_format resolved) bare bare'
    ((encode_eq_ok session resolved).mp encoded) ((encode_eq_ok session' resolved).mp encoded')

theorem alike_of_same_bytes_list :
    let c : Codec := { catalog := { schema := unwrittenSchema } }
    ∃ f, c.catalog.format (unwrittenSchema.descriptor 3) = .ok f ∧
      ((encode 3 (.list [.bytes [], .bytes []])).run c).1 = .ok [] ∧
      ((encode 3 (.list [])).run c).1 = .ok [] ∧
      f.Alike True (.list [.bytes [], .bytes []]) (.list []) := by
  intro c
  have bare {n : Nat} : (Value.list (List.replicate n (.bytes []))).Bare := by
    refine .node rfl fun part mem => ?_
    rw [List.eq_of_mem_replicate mem]
    exact .node rfl fun _ inside => nomatch inside
  obtain ⟨f, resolved⟩ : ∃ f, c.catalog.format (unwrittenSchema.descriptor 3) = .ok f := ⟨_, rfl⟩
  have two : ((encode 3 (.list [.bytes [], .bytes []])).run c).1 = .ok [] := by decide +kernel
  have none : ((encode 3 (.list [])).run c).1 = .ok [] := by decide +kernel
  exact ⟨f, resolved, two, none,
    alike_of_same_bytes .start .start resolved (@bare 2) (@bare 0) two none⟩

/-- The body of a union in its empty case and the number of elements without bytes are not written,
so that such values cannot be told apart. -/
theorem not_alike_of_same_bytes :
    let c : Codec := { catalog := { schema := unwrittenSchema } }
    (∃ f, c.catalog.format (unwrittenSchema.descriptor 2) = .ok f ∧
      ((encode 2 (.union 0 none)).run c).1 = .ok [0, 0, 0, 0] ∧
      ((encode 2 (.union 0 (some (.uint 5)))).run c).1 = .ok [0, 0, 0, 0] ∧
      ¬ f.Alike False (.union 0 none) (.union 0 (some (.uint 5)))) ∧
    ∃ f, c.catalog.format (unwrittenSchema.descriptor 3) = .ok f ∧
      ((encode 3 (.list [])).run c).1 = .ok [] ∧
      ((encode 3 (.list [.bytes []])).run c).1 = .ok [] ∧
      ¬ f.Alike False (.list []) (.list [.bytes []]) := by
  intro c
  constructor
  · refine ⟨_, rfl, by decide +kernel, by decide +kernel, fun alike => ?_⟩
    cases alike with
    | empty _ unwritten =>
      rcases unwritten with loose | same
      · exact loose
      · cases same
  · refine ⟨_, rfl, by decide +kernel, by decide +kernel, fun alike => ?_⟩
    cases alike with
    | items left right length =>
      cases left
      cases right
      cases length
    | uncounted loose => exact loose

end Codec

end SimpleSerialize
