/-
Broken bounds on the number of elements of a sequence and on the width of a byte string.
-/
namespace SimpleSerialize

/-- A sequence has a number of elements that its bound forbids. -/
inductive LengthError
  /-- At most `limit` elements are allowed. -/
  | tooLong (limit actual : Nat)
  /-- Exactly `exact` elements are required. -/
  | wrongLength (exact actual : Nat)
  deriving DecidableEq, Ord

/-- A byte string has a width that its bound forbids. -/
inductive WidthError
  /-- At most `limit` bytes are allowed. -/
  | tooWide (limit actual : Nat)
  /-- Exactly `exact` bytes are required. -/
  | wrongWidth (exact actual : Nat)
  deriving DecidableEq, Ord

def LengthError.message : LengthError → String
  | .tooLong limit actual => s!"{actual}-element value exceeded limit of {limit} elements"
  | .wrongLength required actual =>
    s!"{actual}-element value violated requirement of {required} elements"

def WidthError.message : WidthError → String
  | .tooWide limit actual => s!"{actual}-byte value exceeded limit of {limit} bytes"
  | .wrongWidth required actual =>
    s!"{actual}-byte value violated requirement of {required} bytes"

end SimpleSerialize
