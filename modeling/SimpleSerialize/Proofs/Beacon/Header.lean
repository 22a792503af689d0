/-
Headers in the place of blocks.

A block and its header are records of the same fields, but that the header has a root where the
block has a body.  A root is a byte string of one chunk, which is its own root, so that the two trees
have the same leaves if the header was made with the root of the body.  The signature comes last and
is left out of what is signed.  Main statements:

* `Format.root_record`, `Format.signingRoot_record`: the roots of a record, from those of its fields;
* `Beacon.schema_eq`: the models that the table of the beacon chain is made of;
* `Beacon.root_header`: a header has the root and the signing root of its block.
-/
import SimpleSerialize.Beacon.Chain
import SimpleSerialize.Proofs.Cache
import SimpleSerialize.Proofs.Registering
import SimpleSerialize.Proofs.TypedRoundTrip

namespace SimpleSerialize

/-! ### Roots -/

/-- Bytes that fill one chunk are packed into it. -/
theorem pack_chunk (x : Root) : pack x.bytes = [x] := by
  have whole : x.bytes.take 32 = x.bytes := List.take_of_length_le (Nat.le_of_eq x.length_eq)
  have same : FixedBytes.padded 32 x.bytes = x := by
    apply FixedBytes.ext
    show (x.bytes.rightpad 32 0).take 32 = x.bytes
    rw [List.rightpad, x.length_eq, Nat.sub_self, List.replicate_zero, List.append_nil, whole]
  rw [pack, x.length_eq]
  show [FixedBytes.padded 32 (x.bytes.take 32)] = [x]
  rw [whole, same]

/-- The tree over one chunk is the chunk. -/
theorem Hasher.merkleize_singleton (hasher : Hasher) (x : Root) :
    hasher.merkleize [x] none = x := rfl

namespace Format

variable {hasher : Hasher} {f last : Format} {head : Heading} {a : Handler ContainerAccessor}
  {size : Option Nat} {fields : List Format} {values : List Value} {roots : List Root} {v : Value}
  {r : Root}

/-- The field that a format is used for does not matter for roots. -/
theorem root_forField (field : Option String) :
    (f.forField field).root hasher v = f.root hasher v := by
  cases f <;> rw [forField, root, root]

theorem root_record (each : Aligned (fun f v r => f.root hasher v = .ok r) fields values roots) :
    (container head a fields size).root hasher (.container values) =
      .ok (hasher.merkleize roots none) :=
  (root_container_eq_ok rfl).mpr ⟨values, roots, rfl, each, rfl⟩

/-- What is signed leaves out the last field. -/
theorem signingRoot_record
    (each : Aligned (fun f v r => f.root hasher v = .ok r) fields values roots) :
    (container head a (fields ++ [last]) size).signingRoot hasher (.container (values ++ [v])) =
      .ok (hasher.merkleize roots none) := by
  have arity := each.length_left
  refine signingRoot_container_eq_ok.mpr
    ⟨_, values ++ [v], roots, concrete_of_root? rfl, rfl, ?_, ?_, rfl⟩
  · rw [List.length_append, List.length_append, arity]
    rfl
  · have shared : (fields ++ []).zip (values ++ [v]) = fields.zip values ++ [].zip [v] :=
      List.zip_append arity
    rw [List.append_nil, List.zip_nil_left, List.append_nil] at shared
    rw [List.dropLast_concat, shared]
    exact (aligned_iff_zip arity).mp each

end Format

/-! ### Models -/

namespace Model

variable {hasher : Hasher} {f : Format}

/-- The root of an integer of 64 bits is its numeral. -/
theorem root_word (matched : (Model.uint .eight).Matches f) (n : Fin UInt64.size) :
    f.root hasher (.uint (UInt64.ofNat n.val)) =
      .ok (hasher.merkleize (pack (LittleEndian.encode 8 n.val)) none) := by
  cases matched with
  | uint form =>
    have small : (UInt64.ofNat n.val).toNat = n.val := by
      rw [UInt64.toNat_ofNat', Nat.mod_eq_of_lt n.isLt]
    have fits : n.val < LittleEndian.capacity 8 := n.isLt
    refine (Format.root_basic_eq_ok rfl).mpr ⟨_, ?_, rfl⟩
    rw [Handler.encode, form]
    show BasicForm.encodeInteger _ 8 (UInt64.ofNat n.val).toNat = _
    rw [small, BasicForm.encodeInteger, if_pos fits]

/-- The root of a byte string is that of its bytes. -/
theorem root_bytes {length : UInt32} (matched : (Model.bytes length).Matches f)
    (x : FixedBytes length.toNat) :
    f.root hasher (.bytes x.bytes) = .ok (hasher.merkleize (pack x.bytes) none) := by
  cases matched with
  | bytes form =>
    refine (Format.root_basic_eq_ok rfl).mpr ⟨_, ?_, rfl⟩
    rw [Handler.encode, form]
    show (if x.bytes.length = length.toNat then Except.ok x.bytes else _) = _
    rw [if_pos x.length_eq]

/-- The root of a chunk is the chunk. -/
theorem root_chunk (matched : (Model.bytes 32).Matches f) (x : Root) :
    f.root hasher (.bytes x.bytes) = .ok x := by
  have root := @root_bytes hasher f 32 matched x
  rw [pack_chunk, Hasher.merkleize_singleton] at root
  exact root

end Model

namespace Codec

variable {catalog : Catalog} {hasher : Hasher} {c : Codec} {shape : ShapeId} {m : Model} {r : Root}

theorem rootOfModel_eq_ok (wf : catalog.schema.WellFormed) (session : Session catalog hasher c)
    (declared : m.DeclaredIn catalog.schema shape) {x : m.Instance} :
    ((rootOfModel m x).run c).1 = .ok r ↔
      ∃ f, catalog.format (catalog.schema.descriptor shape) = .ok f ∧
        f.root hasher (m.lower x) = .ok r := by
  rw [rootOfModel, run_withShapeOf session (declared.require_eq wf), root,
    run_withFormat_eq_ok wf session]
  simp only [mapError_eq_ok]

theorem signingRootOfModel_eq_ok (wf : catalog.schema.WellFormed)
    (session : Session catalog hasher c) (declared : m.DeclaredIn catalog.schema shape)
    {x : m.Instance} :
    ((signingRootOfModel m x).run c).1 = .ok r ↔
      ∃ f, catalog.format (catalog.schema.descriptor shape) = .ok f ∧
        f.signingRoot hasher (m.lower x) = .ok r := by
  rw [signingRootOfModel, run_withShapeOf session (declared.require_eq wf), signingRoot,
    run_withFormat_eq_ok wf session]
  simp only [mapError_eq_ok]

end Codec

/-! ### Blocks and headers -/

namespace Beacon

open Codec

variable {catalog : Catalog} {hasher : Hasher} {s : Schema} {shape : ShapeId} {f : Format}
  {name field : String} {content : Model} {v : Value} {r : Root}

/-- The table of the beacon chain is made of these models. -/
theorem schema_eq : Beacon.schema =
    Model.tableOf [state, block, blockHeader, blockRootsRequest, blockBodiesResponse] := by
  have step {α β : Type} (first : Declare α) (next : α → Declare β) (b : Builder) :
      (first >>= next).run b = (next (first.run b).1).run (first.run b).2 := rfl
  rw [Model.tableOf_eq, Beacon.schema, Declare.build]
  simp only [step]
  rfl

/-- Records of the fields that blocks and headers have in common, around one that they do not. -/
abbrev summary (name field : String) (content : Model) : Model :=
  record name [("slot", slot), ("parent_root", root), ("state_root", root), (field, content),
    ("signature", signature)]

/-- The roots of the fields that are signed, with some root in the place of the body. -/
def signedRoots (hasher : Hasher) (b : Block) (content : Root) : List Root :=
  [hasher.merkleize (pack (LittleEndian.encode 8 b.slot.val)) none, b.parentRoot, b.stateRoot,
    content]

/-- The roots of a block or a header depend on its content by the root of the content alone, and the
signature has no part in what is signed. -/
theorem root_summary (wf : catalog.schema.WellFormed)
    (declared : (summary name field content).DeclaredIn catalog.schema shape)
    (resolved : catalog.format (catalog.schema.descriptor shape) = .ok f)
    (hashed : ∀ inside bound g, content.DeclaredIn catalog.schema inside →
      catalog.formatBelow bound (catalog.schema.use inside (some field) none) = .ok g →
        g.root hasher v = .ok r)
    (b : Block) :
    let whole : Value := .container [.uint (UInt64.ofNat b.slot.val), .bytes b.parentRoot.bytes,
      .bytes b.stateRoot.bytes, v, .bytes b.signature.bytes]
    let signatureRoot := hasher.merkleize (pack b.signature.bytes) none
    f.root hasher whole =
        .ok (hasher.merkleize (signedRoots hasher b r ++ [signatureRoot]) none) ∧
      f.signingRoot hasher whole = .ok (hasher.merkleize (signedRoots hasher b r) none) := by
  obtain ⟨fs, ⟨_, _, slotIn, ⟨_, _, parentIn, ⟨_, _, stateIn, ⟨_, _, contentIn,
    ⟨_, _, signIn, rfl, rfl⟩, rfl⟩, rfl⟩, rfl⟩, rfl⟩, row⟩ := declared
  have declared := row.declaration_eq nofun
  rw [Catalog.format, ← Schema.use_none] at resolved
  obtain ⟨below, head, a, gs, size, rfl, each⟩ :=
    Catalog.container_of_format wf (.target declared nofun) declared resolved
  simp only [List.forall₂_cons_left_iff, List.forall₂_nil_left_iff] at each
  obtain ⟨g₁, _, slotFound, ⟨g₂, _, parentFound, ⟨g₃, _, stateFound, ⟨g₄, _, contentFound,
    ⟨g₅, _, signFound, rfl, rfl⟩, rfl⟩, rfl⟩, rfl⟩, rfl⟩ := each
  have matched {m : Model} {shape : ShapeId} {field : String} {g : Format}
      (inside : m.DeclaredIn catalog.schema shape)
      (found : catalog.formatBelow below (catalog.schema.use shape (some field) none) = .ok g) :
      m.Matches g := m.matches_of_format wf inside (inside.sameTarget wf) found
  have slotRoot : g₁.root hasher (.uint (UInt64.ofNat b.slot.val)) =
      .ok (hasher.merkleize (pack (LittleEndian.encode 8 b.slot.val)) none) := by
    cases matched slotIn slotFound with
    | newtype plain => exact Model.root_word plain b.slot
  have signatureRoot : g₅.root hasher (.bytes b.signature.bytes) =
      .ok (hasher.merkleize (pack b.signature.bytes) none) := by
    cases matched signIn signFound with
    | newtype plain => exact Model.root_bytes plain b.signature
  have signed : Aligned (fun (f : Format) v r => f.root hasher v = .ok r) [g₁, g₂, g₃, g₄]
      [.uint (UInt64.ofNat b.slot.val), .bytes b.parentRoot.bytes, .bytes b.stateRoot.bytes, v]
      (signedRoots hasher b r) :=
    .cons slotRoot <| .cons (Model.root_chunk (matched parentIn parentFound) b.parentRoot) <|
      .cons (Model.root_chunk (matched stateIn stateFound) b.stateRoot) <|
      .cons (hashed _ _ _ contentIn contentFound) .nil
  exact ⟨Format.root_record (signed.append (.cons signatureRoot .nil)),
    Format.signingRoot_record signed⟩

/-- However chunks are hashed and whatever the size variables are, a header that was made with the
root of the body of a block has the root of the block and its signing root, and the signing root is
the same under every signature. -/
theorem root_header (built : Beacon.schema = .ok catalog.schema)
    (resolves : ∀ m ∈ [block, blockHeader], ∀ shape,
      catalog.schema.require m.shapeName = .ok shape →
        catalog.Resolves (catalog.schema.descriptor shape))
    {c : Codec} (session : Session catalog hasher c) (b : Block) {r : Root}
    (hashed : ((rootOfModel blockBody b.body).run c).1 = .ok r) :
    ∃ tree signed, ∀ c', Session catalog hasher c' →
      ((rootOfModel block b.toInstance).run c').1 = .ok tree ∧
        ((rootOfModel blockHeader (b.header r).toInstance).run c').1 = .ok tree ∧
        ∀ signature, let b' := { b with signature }
          ((signingRootOfModel block b'.toInstance).run c').1 = .ok signed ∧
          ((signingRootOfModel blockHeader (b'.header r).toInstance).run c').1 = .ok signed := by
  rw [schema_eq] at built
  obtain ⟨wf, each⟩ := Model.declaredIn_of_tableOf built
  obtain ⟨i, blockIn⟩ := each block (by simp)
  obtain ⟨j, headerIn⟩ := each blockHeader (by simp)
  obtain ⟨f, blockFormat⟩ := resolves block (by simp) i (blockIn.require_eq wf)
  obtain ⟨g, headerFormat⟩ := resolves blockHeader (by simp) j (headerIn.require_eq wf)
  -- The body has the root wherever it is declared, also as a field.
  have bodyRoot (inside : ShapeId) (bound : Nat) (g : Format)
      (declared : blockBody.DeclaredIn catalog.schema inside)
      (found : catalog.formatBelow bound (catalog.schema.use inside (some "body") none) = .ok g) :
      g.root hasher (blockBody.lower b.body) = .ok r := by
    obtain ⟨f, resolved, rooted⟩ := (rootOfModel_eq_ok wf session declared).mp hashed
    rw [Catalog.format, ← Schema.use_none] at resolved
    have same : f.forField (some "body") = g :=
      Catalog.formatBelow_unique (Catalog.formatBelow_inField catalog.registry.blind resolved)
        found
    rw [← same, Format.root_forField]
    exact rooted
  have header (inside : ShapeId) (bound : Nat) (g : Format)
      (declared : root.DeclaredIn catalog.schema inside)
      (found : catalog.formatBelow bound (catalog.schema.use inside (some "body_root") none) = .ok g) :
      g.root hasher (.bytes r.bytes) = .ok r :=
    Model.root_chunk (root.matches_of_format wf declared (declared.sameTarget wf) found) r
  have ofBlock := root_summary wf blockIn blockFormat bodyRoot
  have ofHeader := root_summary wf headerIn headerFormat header
  let signed := signedRoots hasher b r
  let signatureRoot := hasher.merkleize (pack b.signature.bytes) none
  refine ⟨hasher.merkleize (signed ++ [signatureRoot]) none, hasher.merkleize signed none,
    fun c' session' => ⟨?_, ?_, fun signature => ?_⟩⟩
  · exact (rootOfModel_eq_ok wf session' blockIn).mpr ⟨f, blockFormat, (ofBlock b).1⟩
  · exact (rootOfModel_eq_ok wf session' headerIn).mpr ⟨g, headerFormat, (ofHeader b).1⟩
  · intro b'
    exact ⟨(signingRootOfModel_eq_ok wf session' blockIn).mpr ⟨f, blockFormat, (ofBlock b').2⟩,
      (signingRootOfModel_eq_ok wf session' headerIn).mpr ⟨g, headerFormat, (ofHeader b').2⟩⟩

/-- A block with a graffiti and an exit, under the size variables of the main network. -/
theorem root_header_mainnet :
    let s := (Beacon.schema.toOption).getD {}
    let hasher : Hasher := ⟨fun l r => .padded 32 (List.zipWith (· + 2 * ·) l.bytes r.bytes), _, rfl⟩
    let c : Codec := { catalog := { schema := s, sizes := mainnet.find? }, hasher }
    let graffiti : Root := .padded 32 [7, 7]
    let exit : voluntaryExit.Instance := ((3 : Word), (0 : Word), .zero 96, ())
    let b : Block := { Block.genesis with
      slot := 12, body := (.zero 96, noDeposits, graffiti, [], [], [exit], ()) }
    ∃ r tree signed, ((rootOfModel blockBody b.body).run c).1 = .ok r ∧
      ((rootOfModel block b.toInstance).run c).1 = .ok tree ∧
      ((rootOfModel blockHeader (b.header r).toInstance).run c).1 = .ok tree ∧
      ((signingRootOfModel block b.toInstance).run c).1 = .ok signed ∧
      ((signingRootOfModel blockHeader (b.header r).toInstance).run c).1 = .ok signed := by
  intro s hasher c graffiti exit b
  have ok {ε α : Type} {x : Except ε α} (h : x.toOption.isSome = true) : ∃ a, x = .ok a := by
    cases x with
    | error e => cases h
    | ok a => exact ⟨a, rfl⟩
  let found (m : Model) : Bool := (s.require m.shapeName >>= fun shape =>
    c.catalog.format (s.descriptor shape)).toOption.isSome
  have computed : Beacon.schema.toOption.isSome = true ∧ found block = true ∧
      found blockHeader = true ∧
      ((rootOfModel blockBody b.body).run c).1.toOption.isSome = true := by
    decide +kernel
  obtain ⟨table, blockFound, headerFound, bodyHashed⟩ := computed
  have built : Beacon.schema = .ok s := by
    obtain ⟨t, h⟩ := ok table
    rw [h]
    show Except.ok t = .ok ((Beacon.schema.toOption).getD {})
    rw [h]
    rfl
  have resolved (m : Model) (h : found m = true) (shape : ShapeId)
      (known : s.require m.shapeName = .ok shape) : c.catalog.Resolves (s.descriptor shape) := by
    simp only [found, known, ok_bind] at h
    exact ok h
  have resolves : ∀ m ∈ [block, blockHeader], ∀ shape, s.require m.shapeName = .ok shape →
      c.catalog.Resolves (s.descriptor shape) :=
    List.forall_mem_cons.mpr ⟨resolved block blockFound,
      List.forall_mem_singleton.mpr (resolved blockHeader headerFound)⟩
  obtain ⟨r, hashed⟩ := ok bodyHashed
  -- The table is not needed any more, and stays closed.
  clear_value s
  obtain ⟨tree, signed, roots⟩ := root_header built resolves .start b hashed
  obtain ⟨ofBlock, ofHeader, signing⟩ := roots c .start
  exact ⟨r, tree, signed, hashed, ofBlock, ofHeader, signing b.signature⟩

end Beacon

end SimpleSerialize
