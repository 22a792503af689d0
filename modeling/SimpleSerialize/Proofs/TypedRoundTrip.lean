/-
Instances of registered models and bytes.

A registered model is known by its name at the place that it was given, the shape there resolves to a
format of its structure, and a model lifts whatever such a format reads.  A codec in any state
therefore accepts as an instance what it accepts as a value, and reads the instance back that it
wrote, as long as the subclasses that travel under the names of newtypes leave values alone.  Main
statement: `Codec.decodeModel_encodeModel`.
-/
import SimpleSerialize.Model.Codec
import SimpleSerialize.Proofs.Lifting
import SimpleSerialize.Proofs.Links

namespace SimpleSerialize

open Builder

namespace Model

variable {catalog : Catalog} {shape : ShapeId} {m : Model} {f : Format} {P : Rebuild → Prop}

/-- A model is found by its name where it is declared. -/
theorem DeclaredIn.require_eq {s : Schema} (wf : s.WellFormed) (declared : m.DeclaredIn s shape) :
    s.require m.shapeName = .ok shape := by
  obtain ⟨d, row⟩ := declared.row
  have found := wf.find?_name row.lt_size
  rw [row.name_eq] at found
  rw [Schema.require, found]

theorem DeclaredIn.lifts (wf : catalog.schema.WellFormed) (declared : m.DeclaredIn catalog.schema shape)
    (resolved : catalog.format (catalog.schema.descriptor shape) = .ok f) : m.Lifts f := by
  have lawful := Catalog.lawful_of_format resolved
  rw [Catalog.format, ← Schema.use_none] at resolved
  exact m.lifts (m.matches_of_format wf declared (declared.sameTarget wf) resolved) lawful

theorem DeclaredIn.allLinks (wf : catalog.schema.WellFormed)
    (declared : m.DeclaredIn catalog.schema shape) (keep : m.NewtypesKeep P catalog.schema)
    (resolved : catalog.format (catalog.schema.descriptor shape) = .ok f) : f.AllLinks P := by
  rw [Catalog.format, ← Schema.use_none] at resolved
  exact Catalog.allLinks_of_format wf (keep.allFunctions declared) resolved

end Model

namespace Codec

variable {catalog : Catalog} {hasher : Hasher} {c c' : Codec} {shape : ShapeId} {m : Model}
  {f : Format} {bytes : Bytes}

/-- At a state of a session, an operation on a declared model works on its shape. -/
theorem run_withShapeOf {α : Type} (session : Session catalog hasher c)
    (found : catalog.schema.require m.shapeName = .ok shape)
    (use : ShapeId → CodecM CodecError α) : (withShapeOf m use).run c = (use shape).run c := by
  have looked : ((shapeOf m).adapt CodecError.schema).run c = (.ok shape, c) := by
    change ((c.catalog.schema.require m.shapeName).mapError CodecError.schema, c) = _
    rw [session.catalog_eq, found]
    rfl
  rw [withShapeOf, run_bind, looked]

theorem encodeModel_eq_ok (session : Session catalog hasher c)
    (found : catalog.schema.require m.shapeName = .ok shape)
    (resolved : catalog.format (catalog.schema.descriptor shape) = .ok f) {x : m.Instance} :
    ((encodeModel m x).run c).1 = .ok bytes ↔ f.encode (m.lower x) = .ok bytes := by
  rw [encodeModel, run_withShapeOf session found, encode_eq_ok session resolved]

theorem decodeModel_eq_ok (session : Session catalog hasher c)
    (found : catalog.schema.require m.shapeName = .ok shape)
    (resolved : catalog.format (catalog.schema.descriptor shape) = .ok f) {x : m.Instance} :
    ((decodeModel m bytes).run c).1 = .ok x ↔ ∃ v, f.decode bytes = .ok v ∧ m.lift v = .ok x := by
  rw [decodeModel, run_withShapeOf session found, run_bind_liftM, bind_eq_ok]
  simp only [decode_eq_ok session resolved, mapError_eq_ok]

/-- What a codec in any state reads as a value of the shape of a registered model it reads as an
instance of the model, which it writes as the same bytes; and the instance that it wrote is the one
that it reads back. -/
theorem decodeModel_encodeModel {log : List (Request × ShapeId)} {b : Builder}
    (reached : Reached log b) (built : b.build = .ok catalog.schema)
    (registered : (.register m, shape) ∈ log)
    (resolved : catalog.format (catalog.schema.descriptor shape) = .ok f)
    (session : Session catalog hasher c) (session' : Session catalog hasher c') :
    (m.NewtypesKeep Rebuild.Inert catalog.schema → ∀ bytes v,
      ((decode shape bytes).run c).1 = .ok v →
        ∃ x, ((decodeModel m bytes).run c).1 = .ok x ∧ ((encodeModel m x).run c').1 = .ok bytes) ∧
      (m.NewtypesKeep Rebuild.Identity catalog.schema → f.Countable → m.Narrow → ∀ x bytes,
        ((encodeModel m x).run c).1 = .ok bytes → ((decodeModel m bytes).run c').1 = .ok x) := by
  obtain ⟨wf, declared⟩ := reached.declaredIn built registered
  have found := declared.require_eq wf
  have lifts := declared.lifts wf resolved
  constructor
  · intro keep bytes v decoded
    have inert := declared.allLinks wf keep resolved
    have read := (decode_eq_ok session resolved).mp decoded
    have written := Format.encode_eq_of_decode inert read
    obtain ⟨x, lifted, again⟩ := lifts.accept v bytes (Format.isNormal_of_decode inert read) written
    exact ⟨x, (decodeModel_eq_ok session found resolved).mpr ⟨v, read, lifted⟩,
      (encodeModel_eq_ok session' found resolved).mpr again⟩
  · intro keep countable narrow x bytes encoded
    have identity := declared.allLinks wf keep resolved
    have written := (encodeModel_eq_ok session found resolved).mp encoded
    -- What is read back is the normal form of what the instance was lowered to.
    have read := Format.decode_of_encode (Catalog.lawful_of_format resolved) countable identity written
    exact (decodeModel_eq_ok session' found resolved).mpr
      ⟨_, read, lifts.recover narrow x bytes written⟩

/-- An optional number with a name of its own, as an empty builder declares it. -/
theorem decodeModel_encodeModel_slot :
    let m : Model := .option (.newtype "Slot" (.uint .eight) .ok)
    let rows : List Entry := [⟨"uint64", .basic (.uint 8)⟩, ⟨"Slot", .subclass 0 .ok⟩,
      ⟨"Union[None,Slot]", .union [1] true⟩]
    let c : Codec := { catalog := { schema := { entries := rows } } }
    let bytes : Bytes := [1, 0, 0, 0, 3, 0, 0, 0, 0, 0, 0, 0]
    let x : m.Instance := some (⟨3, by decide⟩ : Fin (LittleEndian.capacity 8))
    ((decode 2 bytes).run c).1 = .ok (.union 1 (some (.uint 3))) ∧
      (∃ y, ((decodeModel m bytes).run c).1 = .ok y ∧ ((encodeModel m y).run c).1 = .ok bytes) ∧
      ((encodeModel m x).run c).1 = .ok bytes ∧ ((decodeModel m bytes).run c).1 = .ok x := by
  intro m rows c bytes x
  have reached : Reached [(.register m, 2)] { schema := { entries := rows } } :=
    .call (.register m) .start nofun
  have resolved : c.catalog.format (c.catalog.schema.descriptor 2) =
    .ok (.union ⟨"Union[None,Slot]", ⟨2, .unbounded, none, none, none⟩⟩
      ⟨.tagged, "Union[None,Slot]", []⟩ true
      [.basic ⟨"Slot", ⟨1, .unbounded, some 0, none, none⟩⟩ ⟨.uint 8, "uint64", [("Slot", .ok)]⟩]) :=
    rfl
  have decoded : ((decode 2 bytes).run c).1 = .ok (.union 1 (some (.uint 3))) :=
    (decode_eq_ok .start resolved).mpr (by decide +kernel)
  have encoded : ((encodeModel m x).run c).1 = .ok bytes := rfl
  have keep : m.NewtypesKeep Rebuild.Identity { entries := rows } := by
    intro id next rebuild _ declared
    match id, declared with
    | 0, declared => cases declared
    | 1, declared =>
      cases declared
      exact fun v => rfl
    | 2, declared => cases declared
    | _ + 3, declared => cases declared
  obtain ⟨accepted, again⟩ := @decodeModel_encodeModel _ _ _ _ _ m _ _ _ reached rfl
    List.mem_cons_self resolved .start .start
  refine ⟨decoded, accepted (fun id next rebuild mem declared => ?_) bytes _ decoded, encoded, ?_⟩
  · exact (keep id next rebuild mem declared).inert
  · refine again keep (.node trivial fun f mem => ?_) trivial x bytes encoded
    obtain rfl := List.mem_singleton.mp mem
    exact .node trivial nofun

/-- A subclass that was declared before a newtype of its name keeps its function, which refuses what
an instance of the newtype, that has no function of its own, was written as. -/
theorem not_decodeModel_encodeModel :
    let m : Model := .newtype "Slot" (.uint .eight) .ok
    let rows : List Entry := [⟨"uint64", .basic (.uint 8)⟩, ⟨"Slot", .subclass 0 refuseOdd⟩]
    let b : Builder := { schema := { entries := rows } }
    let c : Codec := { catalog := { schema := { entries := rows } } }
    let bytes : Bytes := [3, 0, 0, 0, 0, 0, 0, 0]
    let x : m.Instance := (⟨3, by decide⟩ : Fin (LittleEndian.capacity 8))
    Reached [(.basic (.uint 8), 0), (.subclass "Slot" 0 refuseOdd, 1), (.register m, 1)] b ∧
      b.build = .ok c.catalog.schema ∧ ((encodeModel m x).run c).1 = .ok bytes ∧
      ((decodeModel m bytes).run c).1 = .error (.decode (.rejected "Slot" "odd")) := by
  intro m rows b c bytes x
  have found : c.catalog.schema.require m.shapeName = .ok 1 := rfl
  have encoded : ((encodeModel m x).run c).1 = .ok bytes := by decide +kernel
  have refused : ((decode 1 bytes).run c).1 = .error (.decode (.rejected "Slot" "odd")) := by
    decide +kernel
  refine ⟨?_, rfl, encoded, ?_⟩
  · exact .call (.register m) (.call (.subclass "Slot" 0 refuseOdd)
      (.call (.basic (.uint 8)) .start nofun) (by decide)) nofun
  · rw [decodeModel, run_withShapeOf .start found, run_bind_liftM, refused]
    rfl

end Codec

end SimpleSerialize
