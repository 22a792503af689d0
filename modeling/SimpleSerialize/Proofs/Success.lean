/-
Computations that succeed.

A computation in `Except` that is known to give a result is taken apart into its steps, each with
the result it gave.  Main statements:

* `bind_eq_ok`: a step followed by a computation succeeds exactly when both do;
* `mapM_eq_ok`: a repeated step succeeds exactly when it does on every item;
* `run_bind`: a step followed by a computation, where both may change a state;
* `Aligned`: three lists whose entries belong together place by place, which is what a repeated
  step leaves behind when each place has a step of its own (`zip_mapM_eq_ok`).
-/
import Mathlib.Data.List.Forall2

namespace SimpleSerialize

variable {ε α β γ : Type}

theorem bind_eq_ok {x : Except ε α} {next : α → Except ε β} {b : β} :
    (x >>= next) = .ok b ↔ ∃ a, x = .ok a ∧ next a = .ok b := by
  cases x with
  | error e => exact ⟨fun h => (nomatch h), fun ⟨_, h, _⟩ => (nomatch h)⟩
  | ok a => exact ⟨fun h => ⟨a, rfl, h⟩, fun ⟨_, h, h'⟩ => by cases h; exact h'⟩

/-- A step that succeeded is over. -/
@[simp] theorem ok_bind (a : α) (next : α → Except ε β) : (.ok a >>= next) = next a := rfl

theorem pure_eq_ok {a b : α} : (pure a : Except ε α) = .ok b ↔ a = b := by
  rw [pure, Applicative.toPure]
  exact ⟨fun h => by cases h; rfl, fun h => h ▸ rfl⟩

theorem map_eq_ok {x : Except ε α} {f : α → β} {b : β} :
    x.map f = .ok b ↔ ∃ a, x = .ok a ∧ f a = b := by
  cases x <;> simp [Except.map]

theorem map_eq_error {x : Except ε α} {f : α → β} {e : ε} :
    x.map f = .error e ↔ x = .error e := by
  cases x <;> simp [Except.map]

theorem mapError_eq_ok {x : Except ε α} {f : ε → β} {a : α} :
    x.mapError f = .ok a ↔ x = .ok a := by
  cases x with
  | error e =>
    constructor
    · intro h
      cases h
    · intro h
      cases h
  | ok b =>
    constructor
    · intro h
      cases h
      rfl
    · intro h
      cases h
      rfl

/-- A failure is the image of one. -/
theorem mapError_eq_error {x : Except ε α} {f : ε → β} {e : β} :
    x.mapError f = .error e ↔ ∃ e', x = .error e' ∧ f e' = e := by
  cases x <;> simp [Except.mapError]

theorem mapM_eq_ok {step : α → Except ε β} {as : List α} {bs : List β} :
    as.mapM step = .ok bs ↔ List.Forall₂ (fun a b => step a = .ok b) as bs := by
  induction as generalizing bs with
  | nil => rw [List.mapM_nil, pure_eq_ok, List.forall₂_nil_left_iff, eq_comm]
  | cons a as ih =>
    simp only [List.mapM_cons, bind_eq_ok, pure_eq_ok, List.forall₂_cons_left_iff]
    constructor
    · rintro ⟨b, hb, rest, hrest, rfl⟩
      exact ⟨b, rest, hb, ih.mp hrest, rfl⟩
    · rintro ⟨b, rest, hb, hrest, rfl⟩
      exact ⟨b, hb, rest, ih.mpr hrest, rfl⟩

/-- A repeated step fails as it does on one of the items. -/
theorem exists_of_mapM_eq_error {step : β → Except ε γ} {R : α → β → Prop} {as : List α}
    {bs : List β} (related : List.Forall₂ R as bs) {e : ε} (h : bs.mapM step = .error e) :
    ∃ a ∈ as, ∃ b, R a b ∧ step b = .error e := by
  induction related with
  | nil => cases h
  | @cons a b as bs head _ ih =>
    rw [List.mapM_cons] at h
    cases first : step b with
    | error e' =>
      rw [first] at h
      cases h
      exact ⟨a, List.mem_cons_self, b, head, first⟩
    | ok c =>
      cases rest : bs.mapM step with
      | error e' =>
        rw [first, ok_bind, rest] at h
        cases h
        obtain ⟨a', mem, found⟩ := ih rest
        exact ⟨a', List.mem_cons_of_mem _ mem, found⟩
      | ok cs =>
        rw [first, ok_bind, rest] at h
        cases h

/-- Steps that agree on every item give the same. -/
theorem mapM_congr {f g : α → Except ε β} {as : List α} (h : ∀ a ∈ as, f a = g a) :
    as.mapM f = as.mapM g := by
  induction as with
  | nil => rfl
  | cons a as ih =>
    rw [List.mapM_cons, List.mapM_cons, h a List.mem_cons_self,
      ih fun b mem => h b (List.mem_cons_of_mem _ mem)]

/-! ### Results that are looked at in another way -/

theorem bind_map {x : Except ε α} {next : α → Except ε β} {g : β → γ} :
    (x >>= next).map g = x >>= fun a => (next a).map g := by
  cases x <;> rfl

theorem map_bind {x : Except ε α} {g : α → β} {next : β → Except ε γ} :
    x.map g >>= next = x >>= fun a => next (g a) := by
  cases x <;> rfl

theorem mapM_map_result {step : α → Except ε β} {g : β → γ} (as : List α) :
    as.mapM (fun a => (step a).map g) = (as.mapM step).map (List.map g) := by
  induction as with
  | nil => rfl
  | cons a as ih =>
    rw [List.mapM_cons, List.mapM_cons, ih]
    cases step a with
    | error e => rfl
    | ok b => cases as.mapM step <;> rfl

/-- The same, where each place has a step of its own. -/
theorem zip_mapM_map_result {step : α → β → Except ε γ} {δ : Type} {g : α → γ → δ} (as : List α)
    (bs : List β) :
    ((as.map fun a b => (step a b).map (g a)).zip bs).mapM (fun (run, b) => run b) =
      Except.map (as.zipWith g) (((as.map step).zip bs).mapM fun (run, b) => run b) := by
  induction as generalizing bs with
  | nil => rfl
  | cons a as ih =>
    cases bs with
    | nil => rfl
    | cons b bs =>
      simp only [List.map_cons, List.zip_cons_cons, List.mapM_cons, ih]
      cases step a b with
      | error e => rfl
      | ok c =>
        generalize ((as.map step).zip bs).mapM (fun p => p.1 p.2) = rest
        cases rest <;> rfl

/-- One item may be exchanged for another on which the step gives the same. -/
theorem mapM_set_congr {step : α → Except ε β} {a b : α} (h : step a = step b) (as : List α)
    (i : Nat) : (as.set i a).mapM step = (as.set i b).mapM step := by
  induction as generalizing i with
  | nil => rfl
  | cons head as ih =>
    cases i with
    | zero => rw [List.set_cons_zero, List.set_cons_zero, List.mapM_cons, List.mapM_cons, h]
    | succ i => rw [List.set_cons_succ, List.set_cons_succ, List.mapM_cons, List.mapM_cons, ih]

/-- The same, where each place has a step of its own. -/
theorem zip_mapM_set_congr {steps : List (α → Except ε β)} {as : List α} {a b : α} {i : Nat}
    (h : ∀ step ∈ steps[i]?, step a = step b) :
    (steps.zip (as.set i a)).mapM (fun (run, x) => run x) =
      (steps.zip (as.set i b)).mapM (fun (run, x) => run x) := by
  induction steps generalizing as i with
  | nil => rfl
  | cons step steps ih =>
    cases as with
    | nil => rfl
    | cons head as =>
      cases i with
      | zero => simp only [List.set_cons_zero, List.zip_cons_cons, List.mapM_cons, h step rfl]
      | succ i => simp only [List.set_cons_succ, List.zip_cons_cons, List.mapM_cons, ih h]

/-! ### Steps that change a state -/

section Run

variable {σ : Type} {s : σ}

theorem run_bind (x : ExceptT ε (StateM σ) α) (next : α → ExceptT ε (StateM σ) β) :
    (x >>= next).run s =
      match x.run s with
      | (.ok a, s) => (next a).run s
      | (.error e, s) => (.error e, s) := by
  change (match x.run s with
    | (r, s) => (ExceptT.bindCont next r : StateM σ _) s) = _
  generalize x.run s = result
  obtain ⟨_ | a, s⟩ := result <;> rfl

theorem run_pure (a : α) : (pure a : ExceptT ε (StateM σ) α).run s = (.ok a, s) := rfl

theorem run_liftM (x : Except ε α) : (liftM x : ExceptT ε (StateM σ) α).run s = (x, s) := by
  cases x <;> rfl

/-- A last step that leaves the state alone works on the answer. -/
theorem run_bind_liftM (x : ExceptT ε (StateM σ) α) (next : α → Except ε β) :
    ((x >>= fun a => liftM (next a)).run s).1 = (x.run s).1 >>= next := by
  simp only [run_bind, run_liftM]
  generalize x.run s = result
  obtain ⟨_ | a, s⟩ := result <;> rfl

end Run

/-! ### Related lists -/

/-- What the first of two related entries has to satisfy holds of the whole first list. -/
theorem forall_left {R : α → β → Prop} {P : α → Prop} {as : List α} {bs : List β}
    (h : List.Forall₂ R as bs) (step : ∀ a b, R a b → P a) : ∀ a ∈ as, P a := by
  induction h with
  | nil =>
    intro a mem
    cases mem
  | cons head _ ih =>
    intro a mem
    rcases List.mem_cons.mp mem with rfl | mem
    · exact step a _ head
    · exact ih a mem

theorem forall_right {R : α → β → Prop} {P : β → Prop} {as : List α} {bs : List β}
    (h : List.Forall₂ R as bs) (step : ∀ a b, R a b → P b) : ∀ b ∈ bs, P b :=
  forall_left h.flip fun b a => step a b

/-- If every entry of a list is related to something, some list is related to all of it. -/
theorem exists_forall₂ {R : α → β → Prop} {as : List α} (h : ∀ a ∈ as, ∃ b, R a b) :
    ∃ bs, List.Forall₂ R as bs := by
  induction as with
  | nil => exact ⟨[], .nil⟩
  | cons a as ih =>
    obtain ⟨b, hb⟩ := h a List.mem_cons_self
    obtain ⟨bs, hbs⟩ := ih fun a mem => h a (List.mem_cons_of_mem _ mem)
    exact ⟨b :: bs, .cons hb hbs⟩

/-- Two lists have the same images if their entries have, place by place. -/
theorem map_eq_map_iff {f : α → γ} {g : β → γ} {as : List α} {bs : List β} :
    as.map f = bs.map g ↔ List.Forall₂ (fun a b => f a = g b) as bs := by
  rw [← List.forall₂_eq_eq_eq, List.forall₂_map_left_iff, List.forall₂_map_right_iff]

/-- Two lists are the same if what they are related to tells that their entries are. -/
theorem eq_of_related {R : α → γ → Prop} {S : γ → γ → Prop} {as bs : List α} {cs ds : List γ}
    (left : List.Forall₂ R as cs) (right : List.Forall₂ R bs ds) (between : List.Forall₂ S cs ds)
    (step : ∀ a ∈ as, ∀ b ∈ bs, ∀ c d, R a c → R b d → S c d → a = b) : as = bs := by
  induction left generalizing bs ds with
  | nil =>
    cases between
    cases right
    rfl
  | cons head _ ih =>
    cases between with
    | cons first rest =>
      cases right with
      | cons head' tail' =>
        rw [step _ List.mem_cons_self _ List.mem_cons_self _ _ head head' first,
          ih tail' rest fun a ha b hb =>
            step a (List.mem_cons_of_mem _ ha) b (List.mem_cons_of_mem _ hb)]

/-- The entries of two lists are related if what they have in common place by place says so. -/
theorem forall₂_of_common {R : α → γ → Prop} {T : β → γ → Prop} {S : α → β → Prop} {as : List α}
    {bs : List β} {cs : List γ} (left : List.Forall₂ R as cs) (right : List.Forall₂ T bs cs)
    (step : ∀ a ∈ as, ∀ b ∈ bs, ∀ c, R a c → T b c → S a b) : List.Forall₂ S as bs := by
  induction left generalizing bs with
  | nil =>
    cases right
    exact .nil
  | cons head _ ih =>
    cases right with
    | cons head' tail' =>
      refine .cons (step _ List.mem_cons_self _ List.mem_cons_self _ head head') (ih tail' ?_)
      exact fun a ha b hb => step a (List.mem_cons_of_mem _ ha) b (List.mem_cons_of_mem _ hb)

/-- Three lists of one length whose entries are related place by place. -/
inductive Aligned (R : α → β → γ → Prop) : List α → List β → List γ → Prop
  | nil : Aligned R [] [] []
  | cons {a : α} {b : β} {c : γ} {as : List α} {bs : List β} {cs : List γ} :
    R a b c → Aligned R as bs cs → Aligned R (a :: as) (b :: bs) (c :: cs)

namespace Aligned

variable {R : α → β → γ → Prop} {as : List α} {bs : List β} {cs : List γ}

theorem length_left (h : Aligned R as bs cs) : as.length = bs.length := by
  induction h with
  | nil => rfl
  | cons _ _ ih => rw [List.length_cons, List.length_cons, ih]

theorem length_right (h : Aligned R as bs cs) : as.length = cs.length := by
  induction h with
  | nil => rfl
  | cons _ _ ih => rw [List.length_cons, List.length_cons, ih]

/-- Entries that belong together may be related in another way, if the first of them allows it. -/
theorem imp {S : α → β → γ → Prop} (h : Aligned R as bs cs)
    (step : ∀ a ∈ as, ∀ b c, R a b c → S a b c) : Aligned S as bs cs := by
  induction h with
  | nil => exact .nil
  | cons head _ ih =>
    refine .cons (step _ List.mem_cons_self _ _ head) (ih fun a ha => ?_)
    exact step a (List.mem_cons_of_mem _ ha)

/-- Entries of the second list are combined with those of the first, and go last. -/
theorem zipWith {δ : Type} {S : α → γ → δ → Prop} {g : α → β → δ} (h : Aligned R as bs cs)
    (step : ∀ a ∈ as, ∀ b c, R a b c → S a c (g a b)) : Aligned S as cs (as.zipWith g bs) := by
  induction h with
  | nil => exact .nil
  | cons head _ ih =>
    refine .cons (step _ List.mem_cons_self _ _ head) (ih fun a ha => ?_)
    exact step a (List.mem_cons_of_mem _ ha)

/-- Entries that belong together with something else give another third list. -/
theorem exists_right {δ : Type} {S : α → β → δ → Prop} (h : Aligned R as bs cs)
    (step : ∀ a ∈ as, ∀ b ∈ bs, ∀ c, R a b c → ∃ d, S a b d) : ∃ ds, Aligned S as bs ds := by
  induction h with
  | nil => exact ⟨[], .nil⟩
  | cons head _ ih =>
    obtain ⟨d, hd⟩ := step _ List.mem_cons_self _ List.mem_cons_self _ head
    obtain ⟨ds, hds⟩ := ih fun a ha b hb =>
      step a (List.mem_cons_of_mem _ ha) b (List.mem_cons_of_mem _ hb)
    exact ⟨d :: ds, .cons hd hds⟩

/-- What relates the first two lists is kept beside what relates all three. -/
theorem and_left {P : α → β → Prop} (h : Aligned R as bs cs) (first : List.Forall₂ P as bs) :
    Aligned (fun a b c => P a b ∧ R a b c) as bs cs := by
  induction h with
  | nil => exact .nil
  | cons head _ ih =>
    cases first with
    | cons here rest => exact .cons ⟨here, head⟩ (ih rest)

theorem eq_of_related {S : γ → γ → Prop} {bs' : List β} {cs' : List γ} (left : Aligned R as bs cs)
    (right : Aligned R as bs' cs') (between : List.Forall₂ S cs cs')
    (step : ∀ a ∈ as, ∀ b ∈ bs, ∀ b' ∈ bs', ∀ c c', R a b c → R a b' c' → S c c' → b = b') :
    bs = bs' := by
  induction left generalizing bs' cs' with
  | nil =>
    cases right
    rfl
  | cons head _ ih =>
    cases right with
    | cons head' tail' =>
      cases between with
      | cons first rest =>
        rw [step _ List.mem_cons_self _ List.mem_cons_self _ List.mem_cons_self _ _ head head' first,
          ih tail' rest fun a ha b hb b' hb' => step a (List.mem_cons_of_mem _ ha) b
            (List.mem_cons_of_mem _ hb) b' (List.mem_cons_of_mem _ hb')]

theorem of_common {δ : Type} {T : α → δ → γ → Prop} {S : α → β → δ → Prop} {ds : List δ}
    (left : Aligned R as bs cs) (right : Aligned T as ds cs)
    (step : ∀ a ∈ as, ∀ b ∈ bs, ∀ d ∈ ds, ∀ c, R a b c → T a d c → S a b d) :
    Aligned S as bs ds := by
  induction left generalizing ds with
  | nil =>
    cases right
    exact .nil
  | cons head _ ih =>
    cases right with
    | cons head' tail' =>
      refine .cons (step _ List.mem_cons_self _ List.mem_cons_self _ List.mem_cons_self _ head head')
        (ih tail' fun a ha b hb d hd => ?_)
      exact step a (List.mem_cons_of_mem _ ha) b (List.mem_cons_of_mem _ hb) d
        (List.mem_cons_of_mem _ hd)

theorem append {as' : List α} {bs' : List β} {cs' : List γ} (h : Aligned R as bs cs)
    (h' : Aligned R as' bs' cs') : Aligned R (as ++ as') (bs ++ bs') (cs ++ cs') := by
  induction h with
  | nil => exact h'
  | cons head _ ih => exact .cons head ih

theorem swap (h : Aligned R as bs cs) : Aligned (fun a c b => R a b c) as cs bs := by
  induction h with
  | nil => exact .nil
  | cons head _ ih => exact .cons head ih

end Aligned

/-- Entries that belong together can be paired up first. -/
theorem aligned_iff_zip {R : α → β → γ → Prop} {as : List α} {bs : List β} {cs : List γ}
    (h : as.length = bs.length) :
    Aligned R as bs cs ↔ List.Forall₂ (fun p c => R p.1 p.2 c) (as.zip bs) cs := by
  induction as generalizing bs cs with
  | nil =>
    obtain rfl : bs = [] := List.eq_nil_of_length_eq_zero h.symm
    rw [List.zip_nil_left, List.forall₂_nil_left_iff]
    exact ⟨fun h => by cases h; rfl, fun h => h ▸ .nil⟩
  | cons a as ih =>
    cases bs with
    | nil => cases h
    | cons b bs =>
      have ih {cs : List γ} := @ih bs cs (Nat.succ.inj h)
      rw [List.zip_cons_cons, List.forall₂_cons_left_iff]
      constructor
      · intro h
        cases h with
        | cons head tail => exact ⟨_, _, head, ih.mp tail, rfl⟩
      · rintro ⟨c, cs, head, tail, rfl⟩
        exact .cons head (ih.mpr tail)

/-- Each place has a step of its own. -/
theorem zip_mapM_eq_ok {step : α → β → Except ε γ} {as : List α} {bs : List β} {cs : List γ}
    (h : as.length = bs.length) :
    ((as.map step).zip bs).mapM (fun (run, b) => run b) = .ok cs ↔
      Aligned (fun a b c => step a b = .ok c) as bs cs := by
  rw [mapM_eq_ok, aligned_iff_zip h, List.zip_map_left, List.forall₂_map_left_iff]
  rfl

end SimpleSerialize
