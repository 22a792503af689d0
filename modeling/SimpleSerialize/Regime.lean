/-
The number of elements of a sequence.
-/
import SimpleSerialize.Error

namespace SimpleSerialize

/-- How many elements a sequence has. -/
inductive Regime
  | vector (length : UInt64)
  | list (limit : Option UInt64)
  deriving DecidableEq

namespace Regime

/-- The greatest number of elements, if there is one. -/
def limit? : Regime → Option UInt64
  | vector length => some length
  | list limit => limit

def isVector : Regime → Bool
  | vector _ => true
  | list _ => false

/-- Checks the number of elements of a value. -/
def check (shape : String) (count : Nat) : Regime → Except EncodeError Unit
  | vector length =>
    if count = length.toNat then .ok ()
    else .error (.vectorLength shape (.wrongLength length.toNat count))
  | list (some limit) =>
    if count ≤ limit.toNat then .ok ()
    else .error (.maxSize shape (.tooLong limit.toNat count))
  | list none => .ok ()

/-- Checks the number of elements found in a buffer against the greatest one of a list. -/
def checkLimit (shape : String) (count : Nat) : Regime → Except DecodeError Unit
  | list (some limit) =>
    if count ≤ limit.toNat then .ok ()
    else .error (.maxSize shape (.tooLong limit.toNat count))
  | _ => .ok ()

end Regime

end SimpleSerialize
