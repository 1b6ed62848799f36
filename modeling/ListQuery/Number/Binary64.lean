set_option autoImplicit false

/-!
Double-precision numbers by the bits of their interchange format, and the rounding of whole
numbers to them.
-/

namespace ListQuery

/-- A double-precision number: sign, exponent and fraction in 1, 11 and 52 bits. -/
structure Binary64 where
  bits : UInt64
  deriving DecidableEq, Repr, Inhabited

namespace Binary64

def isNegative (number : Binary64) : Bool := number.bits.toNat >>> 63 = 1

def exponentField (number : Binary64) : Nat := number.bits.toNat >>> 52 % 2048

def fraction (number : Binary64) : Nat := number.bits.toNat % (1 <<< 52)

def isFinite (number : Binary64) : Bool := number.exponentField < 2047

def isNaN (number : Binary64) : Bool := number.exponentField = 2047 ∧ number.fraction ≠ 0

def nan : Binary64 := ⟨0x7ff8000000000000⟩

/-- The number with these bits; one pattern stands for every value that is not a number. -/
def ofBits (bits : UInt64) : Binary64 :=
  if isNaN ⟨bits⟩ then nan else ⟨bits⟩

/-- A finite number has the magnitude `significand · 2 ^ scale`. -/
def significand (number : Binary64) : Nat :=
  if number.exponentField = 0 then number.fraction else (1 <<< 52) + number.fraction

def scale (number : Binary64) : Int := max number.exponentField 1 - 1075

/-- The quotient rounded to the nearest whole number, a half to the even one. -/
def roundHalfEven (numerator denominator : Nat) : Nat :=
  let quotient := numerator / denominator
  let excess := 2 * (numerator % denominator)
  if excess < denominator then quotient
  else if denominator < excess then quotient + 1
  else quotient + quotient % 2

/-- Sign aside, the bits of the number nearest to a positive whole number. A significand that
rounds up to `2 ^ 53` carries into the exponent field, as it has to. -/
def magnitudeBits (n : Nat) : Nat :=
  let top := n.log2
  if 1023 < top then 2047 <<< 52
  else
    let significand :=
      if top ≤ 52 then n <<< (52 - top) else roundHalfEven n (1 <<< (top - 52))
    ((top + 1022) <<< 52) + significand

/-- The number nearest to a whole number, of two the one with an even significand. -/
def nearest : Int → Binary64
  | .ofNat 0 => ⟨0⟩
  | .ofNat n => ⟨UInt64.ofNat (magnitudeBits n)⟩
  | .negSucc n => ⟨UInt64.ofNat ((1 <<< 63) + magnitudeBits (n + 1))⟩

example : nearest 1 = ⟨0x3ff0000000000000⟩ := by decide
example : nearest (-2) = ⟨0xc000000000000000⟩ := by decide
example : nearest (2 ^ 63) = ⟨0x43e0000000000000⟩ := by decide
example : nearest (2 ^ 64 - 1) = ⟨0x43f0000000000000⟩ := by decide
example : nearest (2 ^ 53 + 1) = nearest (2 ^ 53) := by decide
example : nearest (2 ^ 53 + 3) = nearest (2 ^ 53 + 4) := by decide

end Binary64

end ListQuery
