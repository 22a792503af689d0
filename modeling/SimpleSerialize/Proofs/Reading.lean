/-
No buffer makes a reader ask for bytes that are not there.

At every node the reader goes by positions within the window that its parent took for it.  The checks
that come before a slice keep it inside that window, at whatever depth.  Main statements:

* `Format.read_eq`: going by positions gives what cutting up the buffer gives, for values and for
  failures, so that nothing is asked for in vain;
* `Codec.read_within`: the same of codecs, and how the windows of the children of a node make up the
  window of the node.
-/
import SimpleSerialize.Proofs.Canonical
import SimpleSerialize.Proofs.Layout.Spans

namespace SimpleSerialize

/-! ### Failures of one kind among others -/

section MapError

variable {ε δ α β : Type} {g : ε → δ}

theorem mapError_bind {x : Except ε α} {next : α → Except ε β} :
    (x >>= next).mapError g = x.mapError g >>= fun a => (next a).mapError g := by
  cases x <;> rfl

theorem mapM_mapError {step : α → Except ε β} (as : List α) :
    (as.mapM fun a => (step a).mapError g) = (as.mapM step).mapError g := by
  induction as with
  | nil => rfl
  | cons a as ih =>
    rw [List.mapM_cons, List.mapM_cons, ih, mapError_bind]
    refine congrArg _ (funext fun b => ?_)
    cases as.mapM step <;> rfl

end MapError

namespace Layout

variable {α : Type} {shape : String} {bytes : Bytes}

/-- Elements that are read by one reader are read one by one. -/
theorem zip_replicate_mapM {β ε : Type} {step : α → Except ε β} {count : Nat} {as : List α}
    (length : as.length = count) :
    ((List.replicate count step).zip as).mapM (fun (run, a) => run a) = as.mapM step := by
  have pairs : (List.replicate count step).zip as = as.map fun a => (step, a) := by
    rw [List.map_prod_right_eq_zip, List.map_const', length]
  rw [pairs, List.mapM_map]
  rfl

/-- Elements are read from the windows that are found for them. -/
theorem readElements_eq {regime : Regime} {size : Option Nat} {read : Bytes → Except ReadFault α}
    {step : Bytes → Except DecodeError α} (same : ∀ w, read w = (step w).mapError .refused) :
    readElements shape regime size read bytes =
      (elementWindows shape regime size bytes >>= fun found => found.mapM step).mapError
        .refused := by
  obtain rfl : read = fun w => (step w).mapError .refused := funext same
  cases size with
  | some width =>
    simp only [readElements, elementWindows, bind_assoc, mapError_bind]
    cases counted : fixedCount shape regime width bytes with
    | error e => rfl
    | ok count =>
      obtain ⟨full, -⟩ := length_of_fixedCount counted
      have elements := (mapM_elementSpans full fun w => (step w).mapError .refused).trans
        (mapM_mapError _)
      exact congrArg ((regime.checkLimit shape count).mapError .refused >>= ·)
        (funext fun _ => elements)
  | none =>
    simp only [readElements, elementWindows, bind_assoc, mapError_bind, countAt_eq]
    refine congrArg _ (funext fun count => congrArg _ (funext fun _ => ?_))
    rw [readChildren_eq]
    cases found : windows shape (List.replicate count none) bytes with
    | error e => rfl
    | ok pieces =>
      have length : pieces.length = count := by
        rw [← length_of_windows found, List.length_replicate]
      simp only [Except.mapError, ok_bind]
      rw [zip_replicate_mapM length]
      exact mapM_mapError _

end Layout

namespace Format

open Layout

variable {bytes : Bytes}

/-- Children are read from the windows that the buffer is cut into, each by a reader of its own. -/
theorem readChildren_decode {shape : String} {sizes : List (Option Nat)} (fs : List Format)
    (each : ∀ f ∈ fs, ∀ window, f.read window = (f.decode window).mapError .refused) :
    readChildren shape sizes (fs.map read) bytes =
      ((windows shape sizes bytes) >>= fun found =>
        ((fs.map decode).zip found).mapM fun (decodeField, window) => decodeField window).mapError
          .refused := by
  rw [readChildren_eq, mapError_bind]
  refine congrArg _ (funext fun found => ?_)
  rw [← mapM_mapError, List.zip_map_left, List.zip_map_left, List.mapM_map, List.mapM_map]
  refine mapM_congr fun p mem => ?_
  exact each p.1 (List.of_mem_zip mem).1 p.2

/-- Going by positions gives what cutting up the buffer gives. -/
theorem read_eq (f : Format) (bytes : Bytes) :
    f.read bytes = (f.decode bytes).mapError .refused := by
  induction f generalizing bytes with
  | basic head a =>
    rw [read, decode, mapError_bind]
  | list head a regime element ih =>
    rw [read, decode, readElements_eq ih, ← mapError_bind, bind_assoc]
  | union head a nullable variants ih =>
    rw [read, decode]
    by_cases short : bytes.length < offsetSize
    · rw [if_pos short, if_pos short]
      rfl
    have room : offsetSize ≤ bytes.length := Nat.le_of_not_lt short
    rw [if_neg short, if_neg short, offsetAt_eq (by rwa [Nat.zero_add]), slice_rest room]
    simp only [ok_bind, List.drop_zero, readers_eq, decoders_eq, Variant.select_map]
    cases chosen : Variant.select nullable variants (UInt32.ofNat (readOffset bytes)) with
    | none => rfl
    | some variant =>
      cases variant with
      | empty =>
        simp only [Option.map_some, Variant.map]
        split <;> rfl
      | body f =>
        simp only [Option.map_some, Variant.map]
        rw [ih f (Variant.mem_of_select chosen), mapError_bind]
  | container head a fields size ih =>
    rw [read, decode, readers_eq, decoders_eq, readChildren_decode fields ih, ← mapError_bind,
      bind_assoc]

/-- Nothing is asked for that is not there. -/
theorem read_ne_outside (f : Format) (bytes : Bytes) (span : Span) (length : Nat) :
    f.read bytes ≠ .error (.outside span length) := by
  intro asked
  rw [read_eq, mapError_eq_error] at asked
  obtain ⟨e, -, clash⟩ := asked
  cases clash

end Format

/-! ### Codecs -/

namespace Codec

open Layout

variable {catalog : Catalog} {hasher : Hasher} {c : Codec} {shape : ShapeId} {f : Format}

/-- What a codec reads can be read by positions, and all bytes that are asked for, at whatever depth,
are in the window at hand.  Where the checks of a composite pass, its window is divided among the
offsets and the children.  Elements of one size make up their window, too. -/
theorem read_within (session : Session catalog hasher c)
    (resolved : catalog.format (catalog.schema.descriptor shape) = .ok f) (bytes : Bytes) :
    (∃ answer : Except DecodeError Value, f.read bytes = answer.mapError .refused ∧
      ((decode shape bytes).run c).1 = answer.mapError .decode) ∧
    (∀ span length, f.read bytes ≠ .error (.outside span length)) ∧
    (∀ name sizes window places offsets, survey name sizes window = .ok (places, offsets) →
      Divided sizes window places offsets) ∧
    ∀ name regime width window count, fixedCount name regime width window = .ok count →
      Span.Partition window.length (elementSpans width count) := by
  refine ⟨⟨f.decode bytes, f.read_eq bytes, ?_⟩, f.read_ne_outside bytes,
    fun _ _ _ _ _ => divided_of_survey, ?_⟩
  · rw [decode, run_withFormat session resolved]
  · intro name regime width window count counted
    rw [(length_of_fixedCount counted).1]
    exact (tiles_elementSpans width count).partition

/-- A record of a number, the offset of a list, and the list. -/
theorem read_within_record :
    let c : Codec := { catalog := { schema := recordSchema .ok } }
    let bytes : Bytes := [2, 0, 6, 0, 0, 0, 1, 0, 3, 0]
    let v : Value := .container [.uint 2, .list [.uint 1, .uint 3]]
    ((decode 3 bytes).run c).1 = .ok v ∧ (recordFormat .ok).read bytes = .ok v ∧
      Span.Partition 10 [⟨0, 2⟩, ⟨2, 6⟩, ⟨6, 10⟩] := by
  intro c bytes v
  obtain ⟨⟨answer, read, decoded⟩, -, divided, -⟩ := read_within .start (format_record .ok) bytes
  have value : ((decode 3 bytes).run c).1 = .ok v := by decide +kernel
  obtain rfl : answer = .ok v := mapError_eq_ok.mp (decoded.symm.trans value)
  have surveyed : survey "Record" [some 2, none] bytes = .ok ([.inline [2, 0], .offset 0], [6]) := rfl
  exact ⟨value, read, (divided _ _ _ _ _ surveyed).whole⟩

end Codec

end SimpleSerialize
