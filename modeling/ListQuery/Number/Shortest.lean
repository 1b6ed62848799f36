import ListQuery.Number.Binary64
import ListQuery.Number.Digits

set_option autoImplicit false

/-!
The shortest decimal that reads back as a double-precision number. The powers of ten are tried
from the largest down; the first of which some multiple reads back gives the fewest digits. Of
its two multiples beside the number the nearer is taken, and of two as near the greater.
-/

namespace ListQuery

namespace Binary64

/-- A positive number `value / unit` with the ends `low / unit` and `high / unit` of the numbers
that round to it. -/
structure Neighbourhood where
  low : Nat
  value : Nat
  high : Nat
  unit : Nat
  closed : Bool

/-- The numbers that round to a positive finite number reach halfway to its neighbours, and those
ends round to it too if its significand is even. Below a power of two the neighbour is half as
far. -/
def neighbourhood (number : Binary64) : Neighbourhood :=
  let quarters := 4 * number.significand
  let below := if number.fraction = 0 ∧ 1 < number.exponentField then 1 else 2
  let quarter := number.scale - 2
  let factor := 1 <<< quarter.toNat
  { low := (quarters - below) * factor
    value := quarters * factor
    high := (quarters + 2) * factor
    unit := 1 <<< (-quarter).toNat
    closed := number.significand % 2 = 0 }

namespace Neighbourhood

/-- The same neighbourhood in multiples of `10 ^ exponent`. -/
def inPowers (near : Neighbourhood) (exponent : Int) : Neighbourhood :=
  let factor := Nat.pow 10 (-exponent).toNat
  { low := near.low * factor
    value := near.value * factor
    high := near.high * factor
    unit := near.unit * Nat.pow 10 exponent.toNat
    closed := near.closed }

/-- Whether the whole number rounds to the value. -/
def contains (near : Neighbourhood) (n : Nat) : Bool :=
  if near.closed then near.low ≤ n * near.unit ∧ n * near.unit ≤ near.high
  else near.low < n * near.unit ∧ n * near.unit < near.high

/-- Of the two whole numbers beside the value that round to it, the nearer, of two as near the
greater. -/
def whole? (near : Neighbourhood) : Option Nat :=
  let below := near.value / near.unit
  let excess := near.value % near.unit
  match near.contains below, near.contains (below + 1) with
  | true, true => some (if 2 * excess < near.unit then below else below + 1)
  | true, false => some below
  | false, true => some (below + 1)
  | false, false => none

/-- Tries the powers of ten from the given one down for the given number of steps. -/
def shortestFrom (near : Neighbourhood) : Nat → Int → Decimal
  | 0, exponent => ⟨(near.inPowers exponent).value / (near.inPowers exponent).unit, exponent⟩
  | steps + 1, exponent =>
    match (near.inPowers exponent).whole? with
    | some coefficient => ⟨coefficient, exponent⟩
    | none => shortestFrom near steps (exponent - 1)

end Neighbourhood

/-- The decimal with the fewest digits that reads back as a positive finite number. No finite
number exceeds `2 · 10 ^ 308`, and each is a multiple of `10 ^ (-1074)`. -/
def shortest (number : Binary64) : Decimal :=
  number.neighbourhood.shortestFrom 1382 308

/-- The shortest decimal in positional notation; zero keeps its sign. -/
def text (number : Binary64) : List Char :=
  let sign := if number.isNegative then ['-'] else []
  if number.isNaN then "NaN".toList
  else if !number.isFinite then sign ++ "inf".toList
  else if number.significand = 0 then sign ++ ['0']
  else sign ++ number.shortest.positional

end Binary64

end ListQuery
