/-
Every accepted byte string is the encoding of the value it is read as.

The walk down the format shows it node by node: a basic value has one encoding of its size, and the
windows of a composite are only accepted where writing would have put them.  Links that refuse some
values do no harm, as long as they leave the others alone.  Main statements:

* `Format.encode_eq_of_decode`: what is read from a byte string is written as that byte string;
* `Codec.decode_canonical`: the same of a codec, whatever it resolved before, so that no value has
  two encodings.
-/
import SimpleSerialize.Proofs.Session
import SimpleSerialize.Proofs.Walk

namespace SimpleSerialize

/-! ### Basic values -/

namespace BasicForm

variable {shape : String} {form : BasicForm} {bytes : Bytes} {v : Value}

/-- An integer that was read is below the bound of its width. -/
theorem encodeInteger_decode (bytes : Bytes) :
    encodeInteger shape bytes.length (LittleEndian.decode bytes) = .ok bytes := by
  rw [encodeInteger, if_pos (LittleEndian.decode_lt bytes), LittleEndian.encode_decode]

theorem encode_eq_of_decode {other : String} (length : bytes.length = form.size)
    (h : form.decode shape bytes = .ok v) : form.encode other v = .ok bytes := by
  rw [decode.eq_def] at h
  split at h
  · cases h
    rfl
  · cases h
    rfl
  · cases h
  · simp only [size] at length
    split at h
    · cases h
      have below : LittleEndian.decode bytes < 2 ^ 64 := by
        -- Eight digits spell the numbers of 64 bits.
        have small : LittleEndian.capacity bytes.length ≤ 2 ^ 64 := LittleEndian.capacity_mono ‹_›
        exact Nat.lt_of_lt_of_le (LittleEndian.decode_lt bytes) small
      have same : (UInt64.ofNat (LittleEndian.decode bytes)).toNat = LittleEndian.decode bytes :=
        UInt64.toNat_ofNat_of_lt' below
      rw [encode, same, ← length, encodeInteger_decode]
    · cases h
      rw [encode, BigNumbers.ofDigits_eq, ← length, encodeInteger_decode]
  · cases h
    exact if_pos length

/-- Reading never gives a value with a root of its own. -/
theorem concrete_of_decode (h : form.decode shape bytes = .ok v) : v.concrete = some v := by
  rw [decode.eq_def] at h
  split at h
  · cases h
    rfl
  · cases h
    rfl
  · cases h
  · split at h <;> cases h <;> rfl
  · cases h
    rfl

end BasicForm

/-! ### Sequences -/

namespace ListAccessor

variable {shape : String} {a : ListAccessor} {items : List Value} {v : Value}

/-- The elements that a sequence was made of are its elements. -/
theorem items_of_create {other : String} (h : a.create shape items = .ok v) :
    v.concrete = some v ∧ a.items other v = .ok items := by
  cases a with
  | sequence =>
    cases h
    exact ⟨rfl, rfl⟩
  | byteSequence =>
    simp only [create, map_eq_ok, mapM_eq_ok] at h
    obtain ⟨bs, each, rfl⟩ := h
    refine ⟨rfl, congrArg Except.ok ?_⟩
    induction each with
    | nil => rfl
    | cons head _ ih => rw [List.map_cons, ih, byteOf_eq_ok.mp head]

end ListAccessor

/-! ### Formats -/

namespace Format

open Layout

variable {f : Format} {bytes : Bytes} {v : Value}

/-- What is read from a byte string is written as that byte string. -/
theorem encode_eq_of_decode (inert : f.AllLinks Rebuild.Inert) (h : f.decode bytes = .ok v) :
    f.encode v = .ok bytes := by
  induction f generalizing bytes v with
  | basic head a =>
    obtain ⟨length, w, hw, done⟩ := decode_basic_eq_ok.mp h
    obtain rfl := Handler.eq_of_finish inert.here done
    refine encode_basic_eq_ok.mpr ⟨v, BasicForm.concrete_of_decode hw, ?_⟩
    exact BasicForm.encode_eq_of_decode length hw
  | list head a regime element ih =>
    obtain ⟨windows, items, w, hwindows, each, hw, done⟩ := decode_list_eq_ok.mp h
    obtain rfl := Handler.eq_of_finish inert.here done
    obtain ⟨admits, -, written⟩ := written_of_elementWindows hwindows
    obtain ⟨shown, hitems⟩ := ListAccessor.items_of_create hw
    have below : element.AllLinks Rebuild.Inert := inert.inside element List.mem_cons_self
    -- The windows of the elements are the bytes that they are written as.
    refine encode_list_eq_ok.mpr ⟨v, items, windows, shown, hitems, ?_, ?_, written⟩
    · rw [← each.length_eq]
      exact admits
    · exact (each.imp fun window item read => ih below read).flip
  | union head a nullable variants ih =>
    obtain ⟨selector, rest, body, rfl, done, chosen⟩ := decode_union_eq_ok.mp h
    obtain rfl := Handler.eq_of_finish inert.here done
    refine encode_union_eq_ok.mpr ⟨_, selector, rest, rfl, rfl, rfl, ?_⟩
    rcases chosen with ⟨chosen, rfl, -⟩ | ⟨f, w, chosen, read, rfl⟩
    · exact .inl ⟨chosen, rfl⟩
    · have mem := Variant.mem_of_select chosen
      exact .inr ⟨f, w, chosen, rfl, ih f mem (inert.inside f mem) read⟩
  | container head a fields size ih =>
    obtain ⟨windows, values, hwindows, each, done⟩ := decode_container_eq_ok.mp h
    obtain rfl := Handler.eq_of_finish inert.here done
    obtain ⟨parts, sizes, found, -, written⟩ := written_of_windows hwindows
    refine encode_container_eq_ok.mpr ⟨_, values, windows, rfl, rfl, ?_, ?_⟩
    · exact (each.imp fun f mem window value read =>
        ih f mem (inert.inside f mem) read).swap
    · rw [← List.zip_of_prod sizes found]
      exact written

end Format

/-! ### A record -/

/-- A record of a number that travels through a link and of a list of numbers. -/
def recordSchema (link : Rebuild) : Schema where
  entries := [
    ⟨"uint16", .basic (.uint 2)⟩,
    ⟨"List[uint16,4]", .sequence 0 (.bounded (.literal 4))⟩,
    ⟨"Count", .subclass 0 link⟩,
    ⟨"Record", .container [⟨"count", 2, none⟩, ⟨"items", 1, none⟩]⟩]

/-- The format of the record. -/
def recordFormat (link : Rebuild) : Format :=
  let count : Format := .basic ⟨"Count", ⟨2, .unbounded, some 0, some "count", none⟩⟩
    ⟨.uint 2, "uint16", [("Count", link)]⟩
  let number : Format := .basic ⟨"uint16", ⟨0, .unbounded, none, none, none⟩⟩ ⟨.uint 2, "uint16", []⟩
  let items : Format := .list
    ⟨"List[uint16,4]", ⟨1, .bounded (.literal 4), none, some "items", none⟩⟩
    ⟨.sequence, "List[uint16,4]", []⟩ (.list (some 4)) number
  .ofFields ⟨"Record", ⟨3, .unbounded, none, none, none⟩⟩ ⟨.fields, "Record", []⟩ [count, items]

theorem format_record (link : Rebuild) :
    Catalog.format { schema := recordSchema link } ((recordSchema link).descriptor 3) =
      .ok (recordFormat link) := rfl

theorem allLinks_record {P : Rebuild → Prop} {link : Rebuild} (h : P link) :
    (recordFormat link).AllLinks P := by
  have number (head : Heading) (a : Handler BasicForm) (each : ∀ l ∈ a.links, P l.2) :
      (Format.basic head a).AllLinks P := .node each fun _ inside => nomatch inside
  refine .node (fun _ none => nomatch none) fun f field => ?_
  rcases List.mem_pair.mp field with rfl | rfl
  · refine number _ _ fun l only => ?_
    rw [List.mem_singleton.mp only]
    exact h
  · refine .node (fun _ none => nomatch none) fun f element => ?_
    rw [List.mem_singleton.mp element]
    exact number _ _ fun _ none => nomatch none

theorem countable_record (link : Rebuild) : (recordFormat link).Countable := by
  have number (head : Heading) (a : Handler BasicForm) : (Format.basic head a).Countable :=
    .node trivial fun _ inside => nomatch inside
  refine .node trivial fun f field => ?_
  rcases List.mem_pair.mp field with rfl | rfl
  · exact number _ _
  · refine .node (by decide) fun f element => ?_
    rw [List.mem_singleton.mp element]
    exact number _ _

/-- A link that accepts even numbers only. -/
def refuseOdd : Rebuild
  | .uint n => if n % 2 = 0 then .ok (.uint n) else .error "odd"
  | v => .ok v

theorem inert_refuseOdd : Rebuild.Inert refuseOdd := by
  intro v w h
  rw [refuseOdd.eq_def] at h
  split at h
  · split at h <;> cases h
    rfl
  · cases h
    rfl

/-! ### Codecs -/

namespace Codec

variable {catalog : Catalog} {hasher : Hasher} {c c' : Codec} {shape : ShapeId} {f : Format}
  {bytes : Bytes} {v : Value}

/-- Where every link leaves the values it accepts alone, a codec in any state writes what it read as
the byte string it was read from, and no other byte string is read as the same value. -/
theorem decode_canonical (session : Session catalog hasher c) (session' : Session catalog hasher c')
    (resolved : catalog.format (catalog.schema.descriptor shape) = .ok f)
    (inert : f.AllLinks Rebuild.Inert) (decoded : ((decode shape bytes).run c).1 = .ok v) :
    ((encode shape v).run c').1 = .ok bytes ∧
      ∀ other, ((decode shape other).run c').1 = .ok v → other = bytes := by
  have written {some : Bytes} (h : f.decode some = .ok v) : f.encode v = .ok some :=
    Format.encode_eq_of_decode inert h
  have encoded := written ((decode_eq_ok session resolved).mp decoded)
  refine ⟨(encode_eq_ok session' resolved).mpr encoded, fun other h => ?_⟩
  -- Another byte string of the value would be its encoding, too.
  have again := written ((decode_eq_ok session' resolved).mp h)
  rw [encoded] at again
  cases again
  rfl

theorem decode_canonical_record :
    let c : Codec := { catalog := { schema := recordSchema refuseOdd } }
    let bytes : Bytes := [2, 0, 6, 0, 0, 0, 1, 0, 3, 0]
    let v : Value := .container [.uint 2, .list [.uint 1, .uint 3]]
    ((decode 3 bytes).run c).1 = .ok v ∧ ((encode 3 v).run c).1 = .ok bytes := by
  intro c bytes v
  have decoded : ((decode 3 bytes).run c).1 = .ok v :=
    (decode_eq_ok .start (format_record refuseOdd)).mpr (by decide +kernel)
  have canonical := decode_canonical .start .start (format_record refuseOdd)
    (allLinks_record inert_refuseOdd) decoded
  exact ⟨decoded, canonical.1⟩

end Codec

end SimpleSerialize
