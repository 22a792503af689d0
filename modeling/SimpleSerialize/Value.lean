/-
Values, as they stand before and after serialization.

A value says nothing of its shape: the shape decides how its bytes and its root are computed.  Any
part of a value may be overlaid with a root known beforehand, and the part underneath may then be
left out.  Main statements:

* `Value.concrete_overlay`: an overlay shows what it keeps;
* `Value.concrete_withRoot`, `Value.root?_withRoot`: giving a value a root keeps what the value
  shows and replaces the root that an earlier overlay gave it.
-/
import SimpleSerialize.FixedBytes

namespace SimpleSerialize

inductive Value
  | bool (b : Bool)
  /-- An integer of at most 64 bits. -/
  | uint (n : UInt64)
  /-- An integer of any size. -/
  | bigUint (n : Nat)
  | bytes (bs : Bytes)
  | list (items : List Value)
  | container (fields : List Value)
  /-- A selector, and the body that goes with it. -/
  | union (selector : UInt32) (body : Option Value)
  /-- A known root over a value, or over nothing when the value was pruned. -/
  | overlay (root : Root) (kept : Option Value)

namespace Value

mutual

/-- Equality of values as a test. -/
def same : Value → Value → Bool
  | .bool a, .bool b => a == b
  | .uint a, .uint b => a == b
  | .bigUint a, .bigUint b => a == b
  | .bytes a, .bytes b => a == b
  | .list as, .list bs => sameAll as bs
  | .container as, .container bs => sameAll as bs
  | .union s a, .union t b => s == t && sameBody a b
  | .overlay r a, .overlay q b => r == q && sameBody a b
  | _, _ => false

def sameAll : List Value → List Value → Bool
  | [], [] => true
  | a :: as, b :: bs => same a b && sameAll as bs
  | _, _ => false

def sameBody : Option Value → Option Value → Bool
  | none, none => true
  | some a, some b => same a b
  | _, _ => false

end

mutual

theorem same_iff : ∀ a b : Value, same a b = true ↔ a = b
  | .bool a, b => by cases b <;> simp [same]
  | .uint a, b => by cases b <;> simp [same]
  | .bigUint a, b => by cases b <;> simp [same]
  | .bytes a, b => by cases b <;> simp [same]
  | .list as, b => by cases b <;> simp [same, sameAll_iff as]
  | .container as, b => by cases b <;> simp [same, sameAll_iff as]
  | .union s a, b => by cases b <;> simp [same, sameBody_iff a]
  | .overlay r a, b => by cases b <;> simp [same, sameBody_iff a]

theorem sameAll_iff : ∀ as bs : List Value, sameAll as bs = true ↔ as = bs
  | [], bs => by cases bs <;> simp [sameAll]
  | a :: as, bs => by cases bs <;> simp [sameAll, same_iff a, sameAll_iff as]

theorem sameBody_iff : ∀ a b : Option Value, sameBody a b = true ↔ a = b
  | none, b => by cases b <;> simp [sameBody]
  | some a, b => by cases b <;> simp [sameBody, same_iff a]

end

instance : DecidableEq Value := fun a b => decidable_of_iff _ (same_iff a b)

/-- A root in place of a value. -/
def pruned (root : Root) : Value := .overlay root none

/-- What a value is, in the words of error messages. -/
def kind : Value → String
  | .bool _ => "bool"
  | .uint _ | .bigUint _ => "integer"
  | .bytes _ => "bytes"
  | .list _ => "sequence"
  | .container _ => "container"
  | .union _ _ => "union"
  | .overlay _ _ => "virtual"

/-- The value under any overlays of its own, unless it was pruned. -/
def concrete : Value → Option Value
  | .overlay _ (some v) => v.concrete
  | .overlay _ none => none
  | v => some v

/-- The root that an overlay gives the value. -/
def root? : Value → Option Root
  | .overlay root _ => some root
  | _ => none

/-- Gives a value a root; a root given earlier is replaced. -/
def withRoot (root : Root) : Value → Value
  | .overlay _ kept => .overlay root kept
  | v => .overlay root (some v)

@[simp] theorem concrete_overlay (root : Root) (v : Value) :
    (overlay root (some v)).concrete = v.concrete := by
  rw [concrete]

@[simp] theorem concrete_pruned (root : Root) : (pruned root).concrete = none := by
  rw [pruned, concrete]

@[simp] theorem root?_withRoot (root : Root) (v : Value) : (v.withRoot root).root? = some root := by
  cases v <;> rfl

theorem concrete_withRoot (root : Root) (v : Value) : (v.withRoot root).concrete = v.concrete := by
  cases v with
  | overlay r kept => cases kept <;> simp [withRoot, concrete]
  | _ => simp [withRoot, concrete]

end Value

end SimpleSerialize
