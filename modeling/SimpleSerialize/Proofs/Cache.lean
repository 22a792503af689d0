/-
The cache leaves no trace in the answers.

A resolver that has answered some requests answers the next one as a resolver would that starts
without a cache, be it with a format or with a failure.  What it keeps on the way is told by the
nodes that each request comes to: `Catalog.Visits` lists them as they are come to without any cache,
and exactly those that resolve have an entry afterwards, also if the request fails.

An entry is kept for a shape and a hint, and taken for uses under all fields.  So the accessors must
not look at the field that a shape is used for (`Registry.Blind`); the stock accessors do not, and
with others that do the cache shows.  Main statements:

* `Catalog.resolveBelow_serves`: what one request does to a cache that is kept right;
* `Catalog.serve_transparent`: what any requests, one after the other, are answered and leave behind;
* `Catalog.cache_shows`: an accessor for the shapes of one field only;
* `Codec.run_format`: a codec in use answers as a fresh one.
-/
import SimpleSerialize.Proofs.Descent

namespace SimpleSerialize

/-- What a cache has an entry for. -/
def FormatCache.keys {φ L U C : Type} (cache : FormatCache φ L U C) : List CacheKey :=
  cache.map (·.1)

namespace FormatCache

variable {φ L U C : Type} {cache longer : FormatCache φ L U C} {key : CacheKey}
  {f : Format φ L U C}

theorem mem_of_lookup (h : cache.lookup key = some f) : (key, f) ∈ cache := by
  obtain ⟨before, after, rfl, -⟩ := List.lookup_eq_some_iff.mp h
  exact List.mem_append_right before List.mem_cons_self

theorem mem_keys_iff : key ∈ cache.keys ↔ ∃ f, cache.lookup key = some f := by
  constructor
  · intro held
    cases h : cache.lookup key with
    | some f => exact ⟨f, rfl⟩
    | none =>
      obtain ⟨entry, mem, rfl⟩ := List.mem_map.mp held
      have other := List.lookup_eq_none_iff.mp h entry mem
      simp at other
  · rintro ⟨f, h⟩
    exact List.mem_map.mpr ⟨_, mem_of_lookup h, rfl⟩

theorem not_mem_keys_of_lookup (h : cache.lookup key = none) : key ∉ cache.keys := by
  intro held
  obtain ⟨f, found⟩ := mem_keys_iff.mp held
  cases h.symm.trans found

/-- A cache that only gained entries, one for each use, has the entries that it had. -/
theorem lookup_of_longer (nodup : longer.keys.Nodup) (gains : cache <:+ longer)
    (h : cache.lookup key = some f) : longer.lookup key = some f := by
  obtain ⟨new, rfl⟩ := gains
  rw [List.lookup_append]
  have held : key ∈ cache.keys := mem_keys_iff.mpr ⟨f, h⟩
  have apart : key ∉ keys new := fun mem => by
    rw [keys, List.map_append] at nodup
    exact (List.nodup_append.mp nodup).2.2 key mem key held rfl
  cases found : new.lookup key with
  | none => exact h
  | some g => exact absurd (mem_keys_iff.mpr ⟨g, found⟩) apart

end FormatCache

namespace Catalog

section

variable {B φ L U C : Type} [Accessor B] [Formed B φ] [Sized φ] [Accessor L] [Accessor U]
  [Accessor C] {c : Catalog B L U C} {d node : Descriptor} {f : Format φ L U C}
  {outline : Outline φ L U C} {cache : FormatCache φ L U C} {bound : Nat}

/-! ### The nodes that a request comes to -/

/-- Resolution finds a format for a use of a shape. -/
def Resolves (c : Catalog B L U C) (d : Descriptor) : Prop := ∃ f, c.format d = .ok f

/-- The nodes that resolution of a use of a shape comes to, without a cache: the use itself, and what
resolution of a part comes to, for each part before which all others resolve. -/
inductive Visits (c : Catalog B L U C) : Descriptor → Descriptor → Prop
  | here (d : Descriptor) : Visits c d d
  | part {d node part : Descriptor} {outline : Outline φ L U C} {before after : List Descriptor} :
    c.outline d = .ok outline → outline.parts = before ++ part :: after →
    (∀ p ∈ before, c.Resolves p) → Visits c part node → Visits c d node

/-- The nodes that resolution of some uses of shapes comes to, one after the other, up to the first
that does not resolve. -/
def Among (c : Catalog B L U C) (ds : List Descriptor) (node : Descriptor) : Prop :=
  ∃ before d after, ds = before ++ d :: after ∧ (∀ p ∈ before, c.Resolves p) ∧ c.Visits d node

theorem mem_of_split {α : Type} {as before after : List α} {a : α}
    (same : as = before ++ a :: after) : a ∈ as :=
  same ▸ List.mem_append_right before List.mem_cons_self

theorem not_among_nil : ¬c.Among [] node := by
  rintro ⟨before, d, after, same, -⟩
  cases before <;> cases same

theorem among_cons {ds : List Descriptor} :
    c.Among (d :: ds) node ↔ c.Visits d node ∨ (c.Resolves d ∧ c.Among ds node) := by
  constructor
  · rintro ⟨before, part, after, same, resolve, visits⟩
    cases before with
    | nil =>
      cases same
      exact .inl visits
    | cons first before =>
      cases same
      obtain ⟨first, others⟩ := List.forall_mem_cons.mp resolve
      exact .inr ⟨first, before, part, after, rfl, others, visits⟩
  · rintro (visits | ⟨first, before, part, after, rfl, others, visits⟩)
    · exact ⟨[], d, ds, rfl, nofun, visits⟩
    · exact ⟨d :: before, part, after, rfl, List.forall_mem_cons.mpr ⟨first, others⟩, visits⟩

theorem visits_iff (h : c.outline d = .ok outline) :
    c.Visits d node ↔ node = d ∨ c.Among outline.parts node := by
  constructor
  · intro visits
    cases visits with
    | here => exact .inl rfl
    | part h' same resolve visits =>
      cases h.symm.trans h'
      exact .inr ⟨_, _, _, same, resolve, visits⟩
  · rintro (rfl | ⟨before, part, after, same, resolve, visits⟩)
    · exact .here _
    · exact .part h same resolve visits

theorem visits_iff_of_error {e : SchemaError} (h : c.outline d = .error e) :
    c.Visits d node ↔ node = d := by
  constructor
  · intro visits
    cases visits with
    | here => rfl
    | part h' => cases h.symm.trans h'
  · rintro rfl
    exact .here _

/-- No node that is come to stands behind the shape asked for. -/
theorem shape_le_of_visits (wf : c.schema.WellFormed) (plain : c.Plain d)
    (visits : c.Visits d node) : node.shape ≤ d.shape := by
  induction visits with
  | here d => exact Nat.le_refl _
  | @part d node part outline before after h same _ _ ih =>
    have mem : part ∈ outline.parts := mem_of_split same
    exact Nat.le_trans (ih (plain_of_outline h part mem))
      (Nat.le_of_lt (shape_lt_of_part wf plain h part mem))

theorem shape_lt_of_among (wf : c.schema.WellFormed) (plain : c.Plain d)
    (h : c.outline d = .ok outline) (among : c.Among outline.parts node) :
    node.shape < d.shape := by
  obtain ⟨before, part, after, same, -, visits⟩ := among
  have mem : part ∈ outline.parts := mem_of_split same
  exact Nat.lt_of_le_of_lt (shape_le_of_visits wf (plain_of_outline h part mem) visits)
    (shape_lt_of_part wf plain h part mem)

theorem not_resolves_of_format_error {e : SchemaError} (h : c.format d = .error e) :
    ¬c.Resolves d := by
  rintro ⟨f, found⟩
  cases h.symm.trans found

/-- A use without an outline does not resolve, in a table of any size. -/
theorem not_resolves_of_error {e : SchemaError} (h : c.outline d = .error e) : ¬c.Resolves d := by
  rintro ⟨f, found⟩
  rw [format] at found
  cases size : c.schema.size with
  | zero =>
    rw [size] at found
    cases found
  | succ bound =>
    rw [size, formatBelow, h] at found
    cases found

theorem format_of_outline_error {e : SchemaError} (nonempty : 0 < c.schema.size)
    (h : c.outline d = .error e) : c.format d = .error e := by
  obtain ⟨bound, size⟩ := Nat.exists_eq_add_one_of_ne_zero (Nat.ne_zero_of_lt nonempty)
  rw [format, size, formatBelow, h]
  rfl

/-! ### Caches that are kept right -/

/-- A cache that is kept right has at most one entry for a use, the format of the use up to the field
name at its top, and has entries for all parts of what it has an entry for. -/
structure Kept (c : Catalog B L U C) (cache : FormatCache φ L U C) : Prop where
  nodup : cache.keys.Nodup
  format_eq : ∀ entry ∈ cache, c.format (c.useOf entry.1) = .ok (entry.2.forField none)
  parts_held : ∀ entry ∈ cache, ∀ outline, c.outline (c.useOf entry.1) = .ok outline →
    ∀ part ∈ outline.parts, part.cacheKey ∈ cache.keys

theorem kept_nil : c.Kept [] := ⟨.nil, nofun, nofun⟩

namespace Kept

/-- An entry, renamed, is the format of any use that it may be taken for. -/
theorem format_of_mem (blind : c.registry.Blind) (kept : c.Kept cache) (plain : c.Plain d)
    (mem : (d.cacheKey, f) ∈ cache) : c.format d = .ok (f.forField d.field) := by
  have found : c.format ((c.useOf d.cacheKey).inField d.field) = _ :=
    formatBelow_inField blind (kept.format_eq _ mem)
  rw [plain] at found
  refine found.trans ?_
  cases f <;> rfl

/-- A use that has an entry brings with it entries for all nodes that it comes to. -/
theorem mem_keys_of_visits (blind : c.registry.Blind) (kept : c.Kept cache) (plain : c.Plain d)
    (held : d.cacheKey ∈ cache.keys) (visits : c.Visits d node) : node.cacheKey ∈ cache.keys := by
  induction visits with
  | here d => exact held
  | @part d node part outline before after h same _ _ ih =>
    have mem : part ∈ outline.parts := mem_of_split same
    obtain ⟨f, found⟩ := FormatCache.mem_keys_iff.mp held
    have outside : c.outline (c.useOf d.cacheKey) = .ok outline :=
      plain.inField_none ▸ outline_inField blind h
    exact ih (plain_of_outline h part mem)
      (kept.parts_held _ (FormatCache.mem_of_lookup found) outline outside part mem)

/-- The format of a use may be kept for it, once all of its parts are. -/
theorem cons (blind : c.registry.Blind) (kept : c.Kept cache) (plain : c.Plain d)
    (new : d.cacheKey ∉ cache.keys) (h : c.outline d = .ok outline) (found : c.format d = .ok f)
    (parts : ∀ part ∈ outline.parts, part.cacheKey ∈ cache.keys) :
    c.Kept ((d.cacheKey, f) :: cache) := by
  refine ⟨List.nodup_cons.mpr ⟨new, kept.nodup⟩, List.forall_mem_cons.mpr ⟨?_, kept.format_eq⟩,
    List.forall_mem_cons.mpr ⟨?_, ?_⟩⟩
  · exact plain.inField_none ▸ formatBelow_inField blind found
  · intro outline' h' part mem
    have same : c.outline (c.useOf d.cacheKey) = .ok outline :=
      plain.inField_none ▸ outline_inField blind h
    cases same.symm.trans h'
    exact List.mem_cons_of_mem _ (parts part mem)
  · intro entry inside outline' h' part mem
    exact List.mem_cons_of_mem _ (kept.parts_held entry inside outline' h' part mem)

end Kept

/-- What resolution through a cache comes to: it answers as it does without the cache, keeps the
cache right and only adds entries to it, those for the nodes that it comes to and that resolve. -/
structure Serves (c : Catalog B L U C) {α : Type} (visited : Descriptor → Prop)
    (answer : Except SchemaError α) (cache : FormatCache φ L U C)
    (outcome : Except SchemaError α × FormatCache φ L U C) : Prop where
  answer_eq : outcome.1 = answer
  kept : c.Kept outcome.2
  gains : cache <:+ outcome.2
  mem_keys_iff : ∀ key, key ∈ FormatCache.keys outcome.2 ↔
    key ∈ cache.keys ∨ ∃ node, visited node ∧ node.cacheKey = key ∧ c.Resolves node

/-- A use that does not get beyond its outline, or has an entry already, leaves the cache alone. -/
theorem Serves.same {α : Type} {visited : Descriptor → Prop} {answer : Except SchemaError α}
    (kept : c.Kept cache)
    (held : ∀ node, visited node → c.Resolves node → node.cacheKey ∈ cache.keys) :
    c.Serves visited answer cache (answer, cache) := by
  refine ⟨rfl, kept, List.suffix_refl cache, fun key => ⟨.inl, ?_⟩⟩
  rintro (before | ⟨node, come, rfl, resolves⟩)
  · exact before
  · exact held node come resolves

theorem Serves.stuck {α : Type} {answer : Except SchemaError α} {e : SchemaError}
    (kept : c.Kept cache) (h : c.outline d = .error e) :
    c.Serves (c.Visits d) answer cache (answer, cache) := by
  refine .same kept fun node visits resolves => ?_
  obtain rfl := (visits_iff_of_error h).mp visits
  exact absurd resolves (not_resolves_of_error h)

/-- Resolution of some uses of shapes, one after the other, if it is known of each of them. -/
theorem mapM_resolveBelow_serves {ds : List Descriptor}
    (each : ∀ d ∈ ds, ∀ cache, c.Kept cache →
      c.Serves (c.Visits d) (c.format d) cache ((c.resolveBelow bound d).run cache))
    (kept : c.Kept cache) :
    c.Serves (c.Among ds) (ds.mapM c.format) cache ((ds.mapM (c.resolveBelow bound)).run cache) := by
  induction ds generalizing cache with
  | nil =>
    rw [List.mapM_nil, List.mapM_nil, run_pure]
    exact .same kept fun node among => absurd among not_among_nil
  | cons d ds ih =>
    -- The first use leaves a cache that is kept right, in which the others are asked for.
    have first := each d List.mem_cons_self cache kept
    rw [List.mapM_cons, List.mapM_cons, run_bind]
    generalize (c.resolveBelow bound d).run cache = outcome at first
    obtain ⟨answer, cache₁⟩ := outcome
    obtain ⟨rfl, kept₁, gains₁, keys₁⟩ := first
    cases found : c.format d with
    | error e =>
      have stuck : ¬c.Resolves d := not_resolves_of_format_error found
      refine ⟨rfl, kept₁, gains₁, fun key => (keys₁ key).trans ?_⟩
      simp only [among_cons, stuck, false_and, or_false]
    | ok f =>
      have resolves : c.Resolves d := ⟨f, found⟩
      have others := ih (fun d mem => each d (List.mem_cons_of_mem _ mem)) kept₁
      simp only [run_bind]
      generalize (ds.mapM (c.resolveBelow bound)).run cache₁ = outcome at others
      obtain ⟨answers, cache₂⟩ := outcome
      obtain ⟨rfl, kept₂, gains₂, keys₂⟩ := others
      have keys (key : CacheKey) : key ∈ cache₂.keys ↔ key ∈ cache.keys ∨
          ∃ node, c.Among (d :: ds) node ∧ node.cacheKey = key ∧ c.Resolves node := by
        rw [keys₂ key, keys₁ key, or_assoc, ← exists_or]
        simp only [among_cons, resolves, true_and, or_and_right]
      cases ds.mapM c.format <;> exact ⟨rfl, kept₂, gains₁.trans gains₂, keys⟩

namespace Serves

variable {answers : Except SchemaError (List (Format φ L U C))} {cache₁ : FormatCache φ L U C}

/-- A node that fails leaves behind what its parts do. -/
theorem fails (parts : c.Serves (c.Among outline.parts) answers cache (answers, cache₁))
    (h : c.outline d = .ok outline) {e : SchemaError} (found : c.format d = .error e) :
    c.Serves (c.Visits d) (c.format d) cache (.error e, cache₁) := by
  have stuck : ¬c.Resolves d := not_resolves_of_format_error found
  refine ⟨found.symm, parts.kept, parts.gains, fun key => (parts.mem_keys_iff key).trans ?_⟩
  refine or_congr_right (exists_congr fun node => and_congr_left fun ⟨_, resolves⟩ => ?_)
  rw [visits_iff h]
  refine ⟨.inr, ?_⟩
  rintro (rfl | among)
  · exact absurd resolves stuck
  · exact among

/-- A node that resolves is kept after its parts. -/
theorem succeeds (blind : c.registry.Blind) (wf : c.schema.WellFormed) (plain : c.Plain d)
    (parts : c.Serves (c.Among outline.parts) answers cache (answers, cache₁))
    (new : d.cacheKey ∉ cache.keys) (h : c.outline d = .ok outline)
    (each : ∀ part ∈ outline.parts, c.Resolves part) (found : c.format d = .ok f) :
    c.Serves (c.Visits d) (c.format d) cache (.ok f, (d.cacheKey, f) :: cache₁) := by
  -- The parts come to earlier shapes only, so that none of them has put the node there.
  have still : d.cacheKey ∉ cache₁.keys := by
    intro held
    rcases (parts.mem_keys_iff _).mp held with before | ⟨node, among, same, -⟩
    · exact new before
    · exact absurd (congrArg CacheKey.shape same) (Nat.ne_of_lt (shape_lt_of_among wf plain h among))
  have held (part : Descriptor) (mem : part ∈ outline.parts) : part.cacheKey ∈ cache₁.keys := by
    obtain ⟨before, after, split⟩ := List.append_of_mem mem
    refine (parts.mem_keys_iff _).mpr (.inr ⟨part, ⟨before, part, after, split, ?_, .here _⟩, rfl, ?_⟩)
    · exact fun p inside => each p (split ▸ List.mem_append_left _ inside)
    · exact each part mem
  refine ⟨found.symm, parts.kept.cons blind plain still h found held,
    parts.gains.trans (List.suffix_cons _ _), fun key => ?_⟩
  have keys : key ∈ FormatCache.keys ((d.cacheKey, f) :: cache₁) ↔
      key = d.cacheKey ∨ key ∈ cache₁.keys := List.mem_cons
  rw [keys, parts.mem_keys_iff key]
  constructor
  · rintro (rfl | before | ⟨node, among, same, resolves⟩)
    · exact .inr ⟨d, .here d, rfl, f, found⟩
    · exact .inl before
    · exact .inr ⟨node, (visits_iff h).mpr (.inr among), same, resolves⟩
  · rintro (before | ⟨node, visits, same, resolves⟩)
    · exact .inr (.inl before)
    · rcases (visits_iff h).mp visits with rfl | among
      · exact .inl same.symm
      · exact .inr (.inr ⟨node, among, same, resolves⟩)

end Serves

/-- One node, if the same is known of its parts. -/
theorem resolveBelow_succ_serves (blind : c.registry.Blind) (wf : c.schema.WellFormed)
    (plain : c.Plain d) (nonempty : 0 < c.schema.size)
    (each : ∀ outline, c.outline d = .ok outline → ∀ part ∈ outline.parts, ∀ cache, c.Kept cache →
      c.Serves (c.Visits part) (c.format part) cache ((c.resolveBelow bound part).run cache))
    (kept : c.Kept cache) :
    c.Serves (c.Visits d) (c.format d) cache ((c.resolveBelow (bound + 1) d).run cache) := by
  rw [run_resolveBelow_succ]
  cases hit : cache.lookup d.cacheKey with
  | some f =>
    -- An entry of a cache that is kept right is what the use resolves to, and its nodes are held.
    have held : d.cacheKey ∈ cache.keys := FormatCache.mem_keys_iff.mpr ⟨f, hit⟩
    rw [kept.format_of_mem blind plain (FormatCache.mem_of_lookup hit)]
    exact .same kept fun node visits _ => kept.mem_keys_of_visits blind plain held visits
  | none =>
    cases ho : c.outline d with
    | error e =>
      rw [format_of_outline_error nonempty ho]
      exact .stuck kept ho
    | ok outline =>
      have parts := mapM_resolveBelow_serves (each outline ho) kept
      have node := format_eq wf plain nonempty ho
      simp only
      generalize (outline.parts.mapM (c.resolveBelow bound)).run cache = outcome at parts
      obtain ⟨answers, cache₁⟩ := outcome
      obtain rfl : answers = outline.parts.mapM c.format := parts.answer_eq
      cases hp : outline.parts.mapM c.format with
      | error e =>
        rw [hp] at node parts
        exact parts.fails ho node
      | ok formats =>
        rw [hp, ok_bind] at node
        rw [hp] at parts
        simp only
        cases hf : c.finish d outline formats with
        | error e => exact parts.fails ho (node.trans hf)
        | ok f =>
          have each := forall_left (mapM_eq_ok.mp hp) fun part p h => (⟨p, h⟩ : c.Resolves part)
          exact parts.succeeds blind wf plain (FormatCache.not_mem_keys_of_lookup hit) ho each
            (node.trans hf)

/-- Resolution through a cache that is kept right answers as it does without a cache. -/
theorem resolveBelow_serves (blind : c.registry.Blind) (wf : c.schema.WellFormed)
    (plain : c.Plain d) (room : d.shape < bound) (known : d.shape < c.schema.size)
    (kept : c.Kept cache) :
    c.Serves (c.Visits d) (c.format d) cache ((c.resolveBelow bound d).run cache) := by
  induction bound generalizing d cache with
  | zero => exact absurd room (Nat.not_lt_zero _)
  | succ bound ih =>
    refine resolveBelow_succ_serves blind wf plain (Nat.zero_lt_of_lt known)
      (fun outline ho part mem cache kept => ?_) kept
    -- The parts stand before the shape, so that they are resolved with the room that is left.
    have before := shape_lt_of_part wf plain ho part mem
    exact ih (plain_of_outline ho part mem)
      (Nat.lt_of_lt_of_le before (Nat.le_of_lt_succ room)) (Nat.lt_trans before known) kept

/-- A request, whether its shape is in the table or not. -/
theorem resolve_serves (blind : c.registry.Blind) (wf : c.schema.WellFormed) (plain : c.Plain d)
    (kept : c.Kept cache) :
    c.Serves (c.Visits d) (c.format d) cache ((c.resolve d).run cache) := by
  by_cases known : d.shape < c.schema.size
  · exact resolveBelow_serves blind wf plain known known kept
  · cases size : c.schema.size with
    | zero =>
      -- Nothing resolves in an empty table.
      have answer (d : Descriptor) : c.format d = .error (c.unsupported d) := by
        rw [format, size, formatBelow]
      rw [resolve, size, answer]
      refine .same kept fun node _ resolves => ?_
      exact absurd resolves (not_resolves_of_format_error (answer node))
    | succ bound =>
      -- An accessor may support shapes outside the table, but they have no parts.
      rw [resolve, size]
      refine resolveBelow_succ_serves blind wf plain (size ▸ Nat.zero_lt_succ bound)
        (fun outline ho part mem => ?_) kept
      rw [parts_eq_nil plain (Schema.declaration?_eq_none known) ho] at mem
      cases mem

/-! ### Any requests, one after the other -/

/-- Asks one resolver for some uses of shapes, one after the other, whatever it answers. -/
def serve (c : Catalog B L U C) (requests : List Descriptor) :
    StateM (FormatCache φ L U C) (List (Except SchemaError (Format φ L U C))) :=
  requests.mapM fun d => (c.resolve d).run

theorem run_serve_nil : (c.serve []).run cache = ([], cache) := rfl

theorem run_serve_cons (requests : List Descriptor) :
    (c.serve (d :: requests)).run cache =
      (((c.resolve d).run cache).1 :: ((c.serve requests).run ((c.resolve d).run cache).2).1,
        ((c.serve requests).run ((c.resolve d).run cache).2).2) := by
  rw [serve, List.mapM_cons]
  rfl

theorem run_serve_append (requests more : List Descriptor) :
    ((c.serve (requests ++ more)).run cache).2 =
      ((c.serve more).run ((c.serve requests).run cache).2).2 := by
  induction requests generalizing cache with
  | nil => rfl
  | cons d requests ih => rw [List.cons_append, run_serve_cons, run_serve_cons, ih]

/-- What any requests are answered, and what they leave behind. -/
theorem serve_serves (blind : c.registry.Blind) (wf : c.schema.WellFormed)
    {requests : List Descriptor} (plain : ∀ d ∈ requests, c.Plain d) (kept : c.Kept cache) :
    ((c.serve requests).run cache).1 = requests.map c.format ∧
      c.Kept ((c.serve requests).run cache).2 ∧
      cache <:+ ((c.serve requests).run cache).2 ∧
      ∀ key, key ∈ FormatCache.keys ((c.serve requests).run cache).2 ↔ key ∈ cache.keys ∨
        ∃ d ∈ requests, ∃ node, c.Visits d node ∧ node.cacheKey = key ∧ c.Resolves node := by
  induction requests generalizing cache with
  | nil => exact ⟨rfl, kept, List.suffix_refl cache, fun key => by rw [run_serve_nil]; simp⟩
  | cons d requests ih =>
    obtain ⟨first, others⟩ := List.forall_mem_cons.mp plain
    obtain ⟨answer, kept₁, gains₁, keys₁⟩ := resolve_serves blind wf first kept
    obtain ⟨answers, kept₂, gains₂, keys₂⟩ := ih others kept₁
    rw [run_serve_cons]
    refine ⟨congrArg₂ List.cons answer answers, kept₂, gains₁.trans gains₂, fun key => ?_⟩
    rw [keys₂ key, keys₁ key, or_assoc, List.exists_mem_cons_iff]

/-- If no accessor looks at fields, one resolver answers any requests, one after the other, as a
resolver of its own would answer each of them.  Its entries stay as they are; there is one for
exactly those uses that some request came to and that resolved, and it is what a resolver of its own
finds, up to the field name at its top. -/
theorem serve_transparent (blind : c.registry.Blind) (wf : c.schema.WellFormed)
    {requests : List Descriptor} (plain : ∀ d ∈ requests, c.Plain d) :
    let outcome := (c.serve requests).run []
    outcome.1 = requests.map (fun d => ((c.resolve d).run []).1) ∧
      (∀ before after, requests = before ++ after → ∀ key f,
        ((c.serve before).run []).2.lookup key = some f → outcome.2.lookup key = some f) ∧
      (∀ key, (∃ f, outcome.2.lookup key = some f) ↔
        ∃ d ∈ requests, ∃ node, c.Visits d node ∧ node.cacheKey = key ∧ c.Resolves node) ∧
      ∀ key f, outcome.2.lookup key = some f → ∀ node, c.Plain node → node.cacheKey = key →
        ((c.resolve node).run []).1 = .ok (f.forField node.field) := by
  intro outcome
  obtain ⟨answers, kept, -, keys⟩ := serve_serves blind wf plain kept_nil
  have fresh (d : Descriptor) (plain : c.Plain d) : ((c.resolve d).run []).1 = c.format d :=
    (resolve_serves blind wf plain kept_nil).answer_eq
  refine ⟨?_, ?_, fun key => ?_, ?_⟩
  · exact answers.trans (List.map_congr_left fun d mem => (fresh d (plain d mem)).symm)
  · rintro before after rfl key f found
    obtain ⟨first, last⟩ := List.forall_mem_append.mp plain
    obtain ⟨-, kept', -, -⟩ := serve_serves blind wf first kept_nil
    have gains := (serve_serves blind wf last kept').2.2.1
    rw [← run_serve_append] at gains
    exact FormatCache.lookup_of_longer kept.nodup gains found
  · rw [← FormatCache.mem_keys_iff, keys key]
    exact or_iff_right List.not_mem_nil
  · rintro key f found node plain rfl
    rw [fresh node plain]
    exact kept.format_of_mem blind plain (FormatCache.mem_of_lookup found)

end

/-- A container whose second field is a vector without elements, and one of a number alone. -/
def emptyFieldSchema : Schema where
  entries := [
    ⟨"uint8", .basic (.uint 1)⟩,
    ⟨"Vector[uint8, 0]", .sequence 0 (.vector (.literal 0))⟩,
    ⟨"Broken", .container [⟨"a", 0, none⟩, ⟨"b", 1, none⟩]⟩,
    ⟨"Single", .container [⟨"x", 0, none⟩]⟩]

/-- The first request fails, and leaves the number of its first field behind; the second request
finds it there and gives it a name of its own. -/
theorem serve_transparent_emptyField :
    let c : Catalog := { schema := emptyFieldSchema }
    let requests := [c.schema.descriptor 2, c.schema.descriptor 3]
    let outcome := (c.serve requests).run []
    outcome.1 = [.error (.emptyVector "Vector[uint8, 0]"),
        ((c.resolve (c.schema.descriptor 3)).run []).1] ∧
      ∃ f, outcome.2.lookup ⟨0, none⟩ = some f := by
  intro c requests outcome
  have wf : c.schema.WellFormed := by decide
  obtain ⟨answers, -, held, -⟩ := @serve_transparent _ _ _ _ _ _ _ _ _ _ _ c c.registry.blind wf
    requests (List.forall_mem_cons.mpr
      ⟨plain_descriptor 2, List.forall_mem_singleton.mpr (plain_descriptor 3)⟩)
  have visits : c.Visits (c.schema.descriptor 2) ((c.schema.descriptor 0).forField "a") :=
    (visits_iff rfl).mpr (.inr ⟨[], _, _, rfl, nofun, .here _⟩)
  exact ⟨answers, (held _).mpr ⟨_, List.mem_cons_self, _, visits, rfl, _, rfl⟩⟩

/-- An accessor for the numbers in fields of one name. -/
structure FieldNumber where
  field : String

instance : Accessor FieldNumber where
  names _ := []
  supports a s d := d.field == some a.field && Accessor.supports BasicAccessor.uint s d

instance : Formed FieldNumber BasicForm where
  form _ s d := Formed.form BasicAccessor.uint s d

/-- Two containers of a number, in a field that there is an accessor for and in one without. -/
def fieldNumberCatalog : Catalog FieldNumber where
  schema := {
    entries := [
      ⟨"uint8", .basic (.uint 1)⟩,
      ⟨"Known", .container [⟨"a", 0, none⟩]⟩,
      ⟨"Unknown", .container [⟨"b", 0, none⟩]⟩] }
  registry := { basic := [⟨"a"⟩], container := [.fields] }

/-- Where an accessor looks at fields, the cache shows: the number of the first request is taken for
a field that no accessor supports a number in, and the second request resolves only after the
first. -/
theorem cache_shows :
    let c := fieldNumberCatalog
    let requests := [c.schema.descriptor 1, c.schema.descriptor 2]
    c.schema.WellFormed ∧ (∀ d ∈ requests, c.Plain d) ∧
      ((c.resolve (c.schema.descriptor 2)).run []).1 =
        .error (.unsupported "uint8" (some "b") none) ∧
      (∃ f g, ((c.serve requests).run []).1 = [.ok f, .ok g]) ∧
      ((c.serve requests).run []).1 ≠ requests.map fun d => ((c.resolve d).run []).1 := by
  intro c requests
  have wf : c.schema.WellFormed := by decide
  have alone : ((c.resolve (c.schema.descriptor 2)).run []).1 =
      .error (.unsupported "uint8" (some "b") none) := rfl
  obtain ⟨f, g, together⟩ : ∃ f g, ((c.serve requests).run []).1 = [.ok f, .ok g] := ⟨_, _, rfl⟩
  refine ⟨wf, List.forall_mem_cons.mpr ⟨plain_descriptor 1,
    List.forall_mem_singleton.mpr (plain_descriptor 2)⟩, alone, ⟨f, g, together⟩, ?_⟩
  rw [together, List.map_cons, List.map_singleton, alone]
  intro same
  cases (List.cons.inj (List.cons.inj same).2).1

end Catalog

/-! ### Codecs in use -/

namespace Codec

variable {catalog : Catalog} {hasher : Hasher} {c : Codec}

/-- What a codec has resolved so far is what its requests leave behind. -/
theorem Session.exists_served (session : Session catalog hasher c) :
    ∃ shapes : List ShapeId,
      c.cache = ((catalog.serve (shapes.map catalog.schema.descriptor)).run []).2 := by
  induction session with
  | start => exact ⟨[], rfl⟩
  | @step c shape session ih =>
    obtain ⟨shapes, served⟩ := ih
    refine ⟨shapes ++ [shape], ?_⟩
    rw [List.map_append, Catalog.run_serve_append, ← served, ← session.catalog_eq]
    rfl

theorem Session.kept (wf : catalog.schema.WellFormed) (session : Session catalog hasher c) :
    catalog.Kept c.cache := by
  obtain ⟨shapes, served⟩ := session.exists_served
  have plain : ∀ d ∈ shapes.map catalog.schema.descriptor, catalog.Plain d :=
    List.forall_mem_map.mpr fun id _ => Catalog.plain_descriptor id
  exact served ▸ (Catalog.serve_serves catalog.registry.blind wf plain Catalog.kept_nil).2.1

/-- A codec in use answers as a fresh one. -/
theorem run_format (wf : catalog.schema.WellFormed) (session : Session catalog hasher c)
    (shape : ShapeId) :
    ((format shape).run c).1 = catalog.format (catalog.schema.descriptor shape) := by
  have answer := (Catalog.resolve_serves catalog.registry.blind wf
    (Catalog.plain_descriptor shape) (session.kept wf)).answer_eq
  rw [← session.catalog_eq] at answer ⊢
  exact answer

/-- Whatever is done with a shape, a codec in use does it with what the shape resolves to. -/
theorem run_withFormat_eq {α : Type} (wf : catalog.schema.WellFormed)
    (session : Session catalog hasher c) (shape : ShapeId)
    (use : Hasher → Format → Except CodecError α) :
    ((withFormat shape use).run c).1 =
      (catalog.format (catalog.schema.descriptor shape)).mapError .schema >>= use hasher := by
  calc ((withFormat shape use).run c).1
    _ = ((format shape).run c).1.mapError .schema >>= use c.hasher := rfl
    _ = _ := by rw [run_format wf session, session.hasher_eq]

theorem run_withFormat_eq_ok {α : Type} (wf : catalog.schema.WellFormed)
    (session : Session catalog hasher c) {shape : ShapeId}
    {use : Hasher → Format → Except CodecError α} {a : α} :
    ((withFormat shape use).run c).1 = .ok a ↔
      ∃ f, catalog.format (catalog.schema.descriptor shape) = .ok f ∧ use hasher f = .ok a := by
  simp only [run_withFormat_eq wf session, bind_eq_ok, mapError_eq_ok]

end Codec

end SimpleSerialize
