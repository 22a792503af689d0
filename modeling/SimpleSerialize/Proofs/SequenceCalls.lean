/-
Calls on bounded sequences.

Whoever holds a bounded list may start it anew, make it from any list, push, pop, or lift it from a
value; whoever holds a vector may make it from a list, from one element or from an array, change it
through a slice, or lift it.  Calls are answered as on a plain list, which has no bound, except that
a call after which the sequence would break its bound is refused and changes nothing.  The plain
list therefore comes to the same contents, with the same answers, if it is given just the calls that
were accepted.  Main statements:

* `Guards.replays`: a guarded run is the plain run of the calls that were accepted;
* `ListCall.keepsBound`, `VectorCall.keepsBound`: bounded lists and vectors are guarded so.
-/
import SimpleSerialize.Model.Lift
import SimpleSerialize.Proofs.Layout.Elements

namespace SimpleSerialize

/-! ### Runs of calls -/

/-- What a call on a sequence gives back. -/
inductive Reply (α : Type)
  | done
  | popped (last : Option α)
  | refused (e : LengthError)
  /-- A value was not lifted. -/
  | unlifted (e : DecodeError)

def Reply.accepted {α : Type} : Reply α → Bool
  | done | popped _ => true
  | refused _ | unlifted _ => false

/-- Makes calls one after the other, and logs each of them with its reply. -/
def runCalls {κ ρ σ : Type} (step : κ → σ → ρ × σ) : List κ → σ → List (κ × ρ) × σ
  | [], s => ([], s)
  | call :: calls, s =>
    let (reply, next) := step call s
    let (log, last) := runCalls step calls next
    ((call, reply) :: log, last)

section Guarding

variable {κ α σ : Type} {admits : Nat → Prop} {view : σ → List α}
  {plain : κ → List α → Reply α × List α} {refusal : κ → Nat → Reply α}
  {step : κ → σ → Reply α × σ}

/-- Calls are answered as on plain lists, unless the list would then have a number of elements that
is not admitted: such a call is refused, and nothing changes. -/
structure Guards (admits : Nat → Prop) (view : σ → List α) (plain : κ → List α → Reply α × List α)
    (refusal : κ → Nat → Reply α) (step : κ → σ → Reply α × σ) : Prop where
  follows : ∀ call s, admits (plain call (view s)).2.length →
    ((step call s).1, view (step call s).2) = plain call (view s)
  refuses : ∀ call s, ¬ admits (plain call (view s)).2.length →
    step call s = (refusal call (plain call (view s)).2.length, s)

/-- The contents keep a bound, however they were come to; and the calls that were accepted, made on
a plain list, have the same replies and lead to the same contents. -/
structure KeepsBound (admits : Nat → Prop) (view : σ → List α)
    (plain : κ → List α → Reply α × List α) (refusal : κ → Nat → Reply α)
    (step : κ → σ → Reply α × σ) : Prop extends Guards admits view plain refusal step where
  bound : ∀ s, admits (view s).length
  replays : ∀ calls s,
    let (log, last) := runCalls step calls s
    let accepted := log.filter fun entry => entry.2.accepted
    runCalls plain (accepted.map Prod.fst) (view s) = (accepted, view last)

/-- A guarded run is the plain run of the calls that were accepted, if what is refused says so and a
plain list stays as it is where it does not accept a call either. -/
theorem Guards.replays (guards : Guards admits view plain refusal step)
    (refused : ∀ call count, (refusal call count).accepted = false)
    (stays : ∀ call xs, (plain call xs).1.accepted = false → (plain call xs).2 = xs)
    (calls : List κ) (s : σ) :
    let (log, last) := runCalls step calls s
    let accepted := log.filter fun entry => entry.2.accepted
    runCalls plain (accepted.map Prod.fst) (view s) = (accepted, view last) := by
  induction calls generalizing s with
  | nil => rfl
  | cons call calls ih =>
    have rest := ih (step call s).2
    simp only [runCalls, List.filter_cons] at rest ⊢
    by_cases admitted : admits (plain call (view s)).2.length
    · have same := guards.follows call s admitted
      obtain ⟨reply, contents⟩ := Prod.mk.injEq .. ▸ same
      cases accepted : (step call s).1.accepted with
      | true =>
        simp only [if_true, List.map_cons, runCalls, ← same, rest]
      | false =>
        -- The plain list has not accepted the call either, and both are where they were.
        have unchanged := stays call (view s) (reply ▸ accepted)
        rw [contents, unchanged] at rest
        simpa only [Bool.false_eq_true, if_false] using rest
    · rw [guards.refuses call s admitted] at rest ⊢
      simpa only [refused, Bool.false_eq_true, if_false] using rest

end Guarding

/-! ### Lifted elements -/

namespace Model

/-- Lifts every element of a sequence, for a model of some name. -/
def liftItems (element : Model) (name : String) (v : Value) :
    Except DecodeError (List element.Instance) := do
  (← elements name v).mapM fun item => element.lift item

variable {element : Model} {size : UInt64} {v : Value}

theorem lift_boundedList_eq : (Model.boundedList element size).lift v =
    element.liftItems (Model.boundedList element size).shapeName v >>= fun items =>
      (UpTo.ofList? size.toNat items).mapError
        (.maxSize (Model.boundedList element size).shapeName) :=
  (bind_assoc ..).symm

theorem lift_vector_eq : (Model.vector element size).lift v =
    element.liftItems (Model.vector element size).shapeName v >>= fun items =>
      (Exactly.ofList? size.toNat items).mapError fun _ =>
        .modelMismatch (Model.vector element size).shapeName "vector of the declared length"
          "sequence of another length" :=
  (bind_assoc ..).symm

end Model

/-- The reply to a call that changes the sequence in place, or refuses to. -/
def replied {α σ : Type} : Except LengthError Unit × σ → Reply α × σ
  | (.ok _, s) => (.done, s)
  | (.error e, s) => (.refused e, s)

/-- The reply to a call that makes a sequence, which takes the place of the old one unless nothing
was made. -/
def settle {α ε σ : Type} (s : σ) (refuse : ε → Reply α) : Except ε σ → Reply α × σ
  | .ok next => (.done, next)
  | .error e => (refuse e, s)

theorem settle_mapError {α ε ε' σ : Type} {s : σ} {refuse : ε' → Reply α} {f : ε → ε'}
    {x : Except ε σ} : settle s refuse (x.mapError f) = settle s (fun e => refuse (f e)) x := by
  cases x <;> rfl

theorem settle_of_not_accepted {α ε σ : Type} {s : σ} {refuse : ε → Reply α} {x : Except ε σ}
    (failed : (settle s refuse x).1.accepted = false) : (settle s refuse x).2 = s := by
  cases x with
  | error e => rfl
  | ok next => cases failed

/-! ### Bounded lists -/

/-- Calls on a bounded list. -/
inductive ListCall (element : Model)
  | new
  | ofList (items : List element.Instance)
  | push (x : element.Instance)
  | pop
  | lift (v : Value)

namespace ListCall

variable {element : Model} {limit : UInt64}

/-- A call on a list without a bound. -/
def plain (name : String) :
    ListCall element → List element.Instance → Reply element.Instance × List element.Instance
  | new, _ => (.done, [])
  | ofList items, _ => (.done, items)
  | push x, xs => (.done, xs ++ [x])
  | pop, xs => (.popped xs.getLast?, xs.dropLast)
  | lift v, xs => settle xs .unlifted (element.liftItems name v)

/-- A call on a bounded list. -/
def step (limit : UInt64) : ListCall element → UpTo element.Instance limit.toNat →
    Reply element.Instance × UpTo element.Instance limit.toNat
  | new, _ => (.done, .empty)
  | ofList items, xs => settle xs .refused (UpTo.ofList? limit.toNat items)
  | push x, xs => replied ((UpTo.push x).run xs)
  | pop, xs => (.popped xs.pop.1, xs.pop.2)
  | lift v, xs => settle xs .unlifted ((Model.boundedList element limit).lift v)

/-- The reply to a call after which the list would have too many elements. -/
def refusal (limit : UInt64) : ListCall element → Nat → Reply element.Instance
  | lift _, count =>
    .unlifted (.maxSize (Model.boundedList element limit).shapeName (.tooLong limit.toNat count))
  | _, count => .refused (.tooLong limit.toNat count)

section Made

variable {xs : UpTo element.Instance limit.toNat} {items : List element.Instance}
  {refuse : LengthError → Reply element.Instance}

theorem settle_fits (fits : items.length ≤ limit.toNat) :
    settle xs refuse (UpTo.ofList? limit.toNat items) = (.done, ⟨items, fits⟩) := by
  rw [UpTo.ofList?, dif_pos fits]
  rfl

theorem settle_many (many : ¬ items.length ≤ limit.toNat) :
    settle xs refuse (UpTo.ofList? limit.toNat items) =
      (refuse (.tooLong limit.toNat items.length), xs) := by
  rw [UpTo.ofList?, dif_neg many]
  rfl

end Made

theorem guards : Guards (Regime.list (some limit)).Admits UpTo.items
    (@plain element (Model.boundedList element limit).shapeName) (refusal limit)
    (step limit) where
  follows call xs admitted := by
    cases call with
    | new => rfl
    | ofList items =>
      have fits : items.length ≤ limit.toNat := admitted
      rw [step, settle_fits fits]
      rfl
    | push x =>
      have room : xs.items.length < limit.toNat := by
        have count : (xs.items ++ [x]).length ≤ limit.toNat := admitted
        rw [List.length_append, List.length_singleton] at count
        exact Nat.lt_of_succ_le count
      rw [step, UpTo.run_push, dif_pos room]
      rfl
    | pop => rfl
    | lift v =>
      rw [step, plain, Model.lift_boundedList_eq]
      rw [plain] at admitted
      cases lifted : element.liftItems (Model.boundedList element limit).shapeName v with
      | error e => rfl
      | ok items =>
        rw [lifted] at admitted
        have fits : items.length ≤ limit.toNat := admitted
        rw [ok_bind, settle_mapError, settle_fits fits]
        rfl
  refuses call xs outside := by
    cases call with
    | new => exact absurd (Nat.zero_le _) outside
    | ofList items =>
      have many : ¬ items.length ≤ limit.toNat := outside
      rw [step, settle_many many]
      rfl
    | push x =>
      have full : ¬ xs.items.length < limit.toNat := by
        have more : ¬ (xs.items ++ [x]).length ≤ limit.toNat := outside
        rw [List.length_append, List.length_singleton] at more
        exact fun room => more (Nat.succ_le_of_lt room)
      -- The list holds as many elements as it can, and the reply counts one more.
      have count : (xs.items ++ [x]).length = limit.toNat + 1 := by
        have most := xs.length_le
        rw [List.length_append, List.length_singleton]
        omega
      rw [step, UpTo.run_push, dif_neg full, refusal, plain, count]
      · rfl
      · nofun
    | pop => exact absurd xs.pop.2.length_le outside
    | lift v =>
      rw [step, refusal, plain, Model.lift_boundedList_eq]
      rw [plain] at outside
      cases lifted : element.liftItems (Model.boundedList element limit).shapeName v with
      | error e =>
        rw [lifted] at outside
        exact absurd xs.length_le outside
      | ok items =>
        rw [lifted] at outside
        have many : ¬ items.length ≤ limit.toNat := outside
        rw [ok_bind, settle_mapError, settle_many many]
        rfl

/-- A bounded list is a stack of what it accepted. -/
theorem keepsBound : KeepsBound (Regime.list (some limit)).Admits UpTo.items
    (@plain element (Model.boundedList element limit).shapeName) (refusal limit)
    (step limit) where
  toGuards := guards
  bound xs := xs.length_le
  replays := by
    refine guards.replays (fun call count => ?_) fun call xs failed => ?_
    · cases call <;> rfl
    · cases call with
      | lift v => exact settle_of_not_accepted failed
      | _ => cases failed

end ListCall

/-! ### Vectors -/

/-- A change that is made through a slice, which cannot change the number of elements. -/
structure SliceChange (α : Type) where
  apply : List α → List α
  length_apply : ∀ items, (apply items).length = items.length

namespace SliceChange

variable {α : Type}

def set (i : Nat) (a : α) : SliceChange α := ⟨fun items => items.set i a, fun _ => List.length_set⟩

def sort (le : α → α → Bool) : SliceChange α :=
  ⟨fun items => items.mergeSort le, fun _ => List.length_mergeSort _⟩

end SliceChange

namespace Exactly

variable {α : Type} {n : Nat}

/-- The elements of an array. -/
def ofArray (array : Vector α n) : Exactly α n := ⟨array.toList, array.length_toList⟩

/-- Changes the elements through a slice. -/
def change (xs : Exactly α n) (f : SliceChange α) : Exactly α n :=
  ⟨f.apply xs.items, (f.length_apply xs.items).trans xs.length_eq⟩

theorem change_set (xs : Exactly α n) (i : Nat) (a : α) : xs.change (.set i a) = xs.set i a := rfl

theorem change_sort (xs : Exactly α n) (le : α → α → Bool) :
    xs.change (.sort le) = xs.sort le := rfl

end Exactly

/-- Calls on a vector of some number of elements. -/
inductive VectorCall (element : Model) (length : UInt64)
  | ofList (items : List element.Instance)
  | replicate (x : element.Instance)
  | ofArray (array : Vector element.Instance length.toNat)
  | change (f : SliceChange element.Instance)
  | lift (v : Value)

namespace VectorCall

variable {element : Model} {length : UInt64}

/-- A call on a list without a bound. -/
def plain (name : String) : VectorCall element length → List element.Instance →
    Reply element.Instance × List element.Instance
  | ofList items, _ => (.done, items)
  | replicate x, _ => (.done, List.replicate length.toNat x)
  | ofArray array, _ => (.done, array.toList)
  | change f, xs => (.done, f.apply xs)
  | lift v, xs => settle xs .unlifted (element.liftItems name v)

/-- A call on a vector. -/
def step : VectorCall element length → Exactly element.Instance length.toNat →
    Reply element.Instance × Exactly element.Instance length.toNat
  | ofList items, xs => settle xs .refused (Exactly.ofList? length.toNat items)
  | replicate x, _ => (.done, .replicate length.toNat x)
  | ofArray array, _ => (.done, .ofArray array)
  | change f, xs => (.done, xs.change f)
  | lift v, xs => settle xs .unlifted ((Model.vector element length).lift v)

/-- The reply to a call after which the vector would have another number of elements. -/
def refusal : VectorCall element length → Nat → Reply element.Instance
  | lift _, _ => .unlifted (.modelMismatch (Model.vector element length).shapeName
      "vector of the declared length" "sequence of another length")
  | _, count => .refused (.wrongLength length.toNat count)

section Made

variable {xs : Exactly element.Instance length.toNat} {items : List element.Instance}
  {refuse : LengthError → Reply element.Instance}

theorem settle_exact (exact : items.length = length.toNat) :
    settle xs refuse (Exactly.ofList? length.toNat items) = (.done, ⟨items, exact⟩) := by
  rw [Exactly.ofList?, dif_pos exact]
  rfl

theorem settle_other (other : items.length ≠ length.toNat) :
    settle xs refuse (Exactly.ofList? length.toNat items) =
      (refuse (.wrongLength length.toNat items.length), xs) := by
  rw [Exactly.ofList?_eq_error other]
  rfl

end Made

theorem guards : Guards (Regime.vector length).Admits Exactly.items
    (@plain element length (Model.vector element length).shapeName) refusal
    step where
  follows call xs admitted := by
    cases call with
    | ofList items =>
      have exact : items.length = length.toNat := admitted
      rw [step, settle_exact exact]
      rfl
    | lift v =>
      rw [step, plain, Model.lift_vector_eq]
      rw [plain] at admitted
      cases lifted : element.liftItems (Model.vector element length).shapeName v with
      | error e => rfl
      | ok items =>
        rw [lifted] at admitted
        have exact : items.length = length.toNat := admitted
        rw [ok_bind, settle_mapError, settle_exact exact]
        rfl
    | _ => rfl
  refuses call xs outside := by
    cases call with
    | ofList items =>
      have other : items.length ≠ length.toNat := outside
      rw [step, settle_other other]
      rfl
    | replicate x => exact absurd List.length_replicate outside
    | ofArray array => exact absurd array.length_toList outside
    | change f => exact absurd (xs.change f).length_eq outside
    | lift v =>
      rw [step, refusal, Model.lift_vector_eq]
      rw [plain] at outside
      cases lifted : element.liftItems (Model.vector element length).shapeName v with
      | error e =>
        rw [lifted] at outside
        exact absurd xs.length_eq outside
      | ok items =>
        rw [lifted] at outside
        have other : items.length ≠ length.toNat := outside
        rw [ok_bind, settle_mapError, settle_other other]

/-- A vector has what the calls that were accepted made of it, and never another length. -/
theorem keepsBound : KeepsBound (Regime.vector length).Admits Exactly.items
    (@plain element length (Model.vector element length).shapeName) refusal
    step where
  toGuards := guards
  bound xs := xs.length_eq
  replays := by
    refine guards.replays (fun call count => ?_) fun call xs failed => ?_
    · cases call <;> rfl
    · cases call with
      | lift v => exact settle_of_not_accepted failed
      | _ => cases failed

end VectorCall

end SimpleSerialize
