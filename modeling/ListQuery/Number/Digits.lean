set_option autoImplicit false

/-!
Decimal numerals as text: whole numbers, numbers of a fixed least width, and positional notation
of `coefficient · 10 ^ exponent`, which never has an exponent part.
-/

namespace ListQuery

namespace Number

/-- The digits of a number without leading zeros; zero has one digit. -/
def digits (n : Nat) : List Char := Nat.toDigits 10 n

def padded (width n : Nat) : List Char :=
  List.replicate (width - (digits n).length) '0' ++ digits n

/-- A minus sign stands before the digits of a negative number, and nothing before others. -/
def signed : Int → List Char
  | .ofNat n => digits n
  | .negSucc n => '-' :: digits (n + 1)

end Number

/-- The number `coefficient · 10 ^ exponent`. -/
structure Decimal where
  coefficient : Nat
  exponent : Int

namespace Decimal

open Number

/-- Whole numbers end in their zeros; others have a point and a digit before it. -/
def positional (number : Decimal) : List Char :=
  let shown := digits number.coefficient
  match number.exponent with
  | .ofNat zeros => shown ++ List.replicate zeros '0'
  | .negSucc less =>
    let places := less + 1
    let filled := List.replicate (places + 1 - shown.length) '0' ++ shown
    filled.take (filled.length - places) ++ '.' :: filled.drop (filled.length - places)

example : positional ⟨1, 21⟩ = "1000000000000000000000".toList := by decide
example : positional ⟨1, -7⟩ = "0.0000001".toList := by decide
example : positional ⟨1234, -2⟩ = "12.34".toList := by decide

end Decimal

end ListQuery
