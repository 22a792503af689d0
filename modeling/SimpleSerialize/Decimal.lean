/-
Decimal numerals.

A numeral is a digit followed by digits and underscores, which are left out; one plus sign may stand
in front of it.
-/
import SimpleSerialize.Bytes.LittleEndian

namespace SimpleSerialize.Decimal

/-- Why a text is no numeral. -/
inductive Fault
  | empty
  | notDigit
  deriving DecidableEq

def Fault.message : Fault → String
  | .empty => "cannot parse integer from empty string"
  | .notDigit => "invalid digit found in string"

/-- Drops one plus sign, unless another follows it. -/
def dropSign : Bytes → Bytes
  | 43 :: 43 :: rest => 43 :: 43 :: rest
  | 43 :: rest => rest
  | text => text

/-- Reads on after the digits that spell `n`. -/
def digits (n : Nat) : Bytes → Except Fault Nat
  | [] => .ok n
  | 95 :: rest => digits n rest
  | b :: rest =>
    if 48 ≤ b ∧ b ≤ 57 then digits (10 * n + (b.toNat - 48)) rest else .error .notDigit

/-- The number that a text, itself given as bytes, spells. -/
def parseBytes (text : Bytes) : Except Fault Nat :=
  match dropSign text with
  | [] => .error .empty
  | 95 :: _ => .error .notDigit
  | numeral => digits 0 numeral

def parse (text : String) : Except Fault Nat := parseBytes text.toUTF8.toList

end SimpleSerialize.Decimal
