set_option autoImplicit false

/-!
Reading a signed 64-bit number: at most one sign, then digits of ASCII. The first character at
which the numeral goes wrong names the fault.
-/

namespace ListQuery

/-- Why a text is no signed 64-bit number. -/
inductive NumeralFault where
  | empty
  | invalidDigit
  | tooLarge
  | tooSmall
  deriving DecidableEq, Repr

namespace NumeralFault

def message : NumeralFault → String
  | .empty => "cannot parse integer from empty string"
  | .invalidDigit => "invalid digit found in string"
  | .tooLarge => "number too large to fit in target type"
  | .tooSmall => "number too small to fit in target type"

end NumeralFault

namespace Number

def digitValue? (c : Char) : Option Nat :=
  if '0' ≤ c ∧ c ≤ '9' then some (c.toNat - '0'.toNat) else none

/-- Reads digits after a value until one is no digit or leads past the limit. -/
def readDigits (limit : Nat) (beyond : NumeralFault) : Nat → List Char → Except NumeralFault Nat
  | value, [] => .ok value
  | value, c :: rest =>
    match digitValue? c with
    | none => .error .invalidDigit
    | some digit =>
      let next := 10 * value + digit
      if next ≤ limit then readDigits limit beyond next rest else .error beyond

def readMagnitude (limit : Nat) (beyond : NumeralFault) : List Char → Except NumeralFault Nat
  | [] => .error .invalidDigit
  | text => readDigits limit beyond 0 text

/-- Reads a number from `-2 ^ 63` to `2 ^ 63 - 1`. -/
def readInt64 : List Char → Except NumeralFault Int64
  | [] => .error .empty
  | '-' :: rest =>
    (readMagnitude (1 <<< 63) .tooSmall rest).map fun magnitude : Nat => Int64.ofInt (-magnitude)
  | '+' :: rest =>
    (readMagnitude ((1 <<< 63) - 1) .tooLarge rest).map fun magnitude : Nat => Int64.ofInt magnitude
  | text =>
    (readMagnitude ((1 <<< 63) - 1) .tooLarge text).map fun magnitude : Nat => Int64.ofInt magnitude

end Number

end ListQuery
