import ListQuery.Calendar
import ListQuery.Number.Digits

set_option autoImplicit false

/-!
Instants of universal time, leap seconds included: their epoch milliseconds, the form that
predicates carry, and their timestamp text.
-/

namespace ListQuery

/-- Seconds since 1970 and nanoseconds after them. A leap second is the second thousand million of
nanoseconds of the last second of a minute. -/
structure Instant where
  seconds : Int
  nanos : Nat
  /-- The first instant is the start of year -262143 and the last second ends year 262142. -/
  inRange : -8334601228800 ≤ seconds ∧ seconds ≤ 8210266876799
  leap : nanos < 1000000000 ∨ nanos < 2000000000 ∧ seconds % 60 = 59
  deriving DecidableEq

namespace Instant

def ofUnix? (seconds : Int) (nanos : Nat) : Option Instant :=
  if inRange : -8334601228800 ≤ seconds ∧ seconds ≤ 8210266876799 then
    if leap : nanos < 1000000000 ∨ nanos < 2000000000 ∧ seconds % 60 = 59 then
      some ⟨seconds, nanos, inRange, leap⟩
    else none
  else none

/-- Milliseconds since 1970, rounded down; a leap second runs on into the next second. -/
def epochMillis (instant : Instant) : Int64 :=
  Int64.ofInt (instant.seconds * 1000 + (instant.nanos / 1000000 : Nat))

/-- No instant is so far from 1970 that its milliseconds leave 64 bits. -/
theorem toInt_epochMillis (instant : Instant) :
    instant.epochMillis.toInt = instant.seconds * 1000 + (instant.nanos / 1000000 : Nat) := by
  obtain ⟨seconds, nanos, inRange, leap⟩ := instant
  simp only [epochMillis]
  apply Int64.toInt_ofInt_of_le <;> omega

open Number

/-- Four digits from year 0 to year 9999; other years have a sign and at least four digits. -/
def yearText (year : Int) : List Char :=
  if 0 ≤ year ∧ year ≤ 9999 then padded 4 year.toNat
  else (if year < 0 then '-' else '+') :: padded 4 year.natAbs

/-- Nothing for a whole second, else the fewest of 3, 6 or 9 places that show the fraction. -/
def fractionText (nanos : Nat) : List Char :=
  if nanos = 0 then []
  else if nanos % 1000000 = 0 then '.' :: padded 3 (nanos / 1000000)
  else if nanos % 1000 = 0 then '.' :: padded 6 (nanos / 1000)
  else '.' :: padded 9 nanos

/-- Date and time of day with the offset of universal time; a leap second is second 60. -/
def timestamp (instant : Instant) : List Char :=
  let date := CalendarDate.ofEpochDay (instant.seconds / 86400)
  let secondOfDay := (instant.seconds % 86400).toNat
  let second := secondOfDay % 60 + instant.nanos / 1000000000
  yearText date.year ++ '-' :: padded 2 date.month ++ '-' :: padded 2 date.day ++
    'T' :: padded 2 (secondOfDay / 3600) ++ ':' :: padded 2 (secondOfDay / 60 % 60) ++
    ':' :: padded 2 second ++ fractionText (instant.nanos % 1000000000) ++ "+00:00".toList

example : (ofUnix? 1704067200 123000000).map timestamp =
    some "2024-01-01T00:00:00.123+00:00".toList := by decide
example : (ofUnix? 1483228799 1000000000).map timestamp =
    some "2016-12-31T23:59:60+00:00".toList := by decide
example : (ofUnix? 253402300800 1).map timestamp =
    some "+10000-01-01T00:00:00.000000001+00:00".toList := by decide
example : (ofUnix? (-8334601228800) 0).map timestamp =
    some "-262143-01-01T00:00:00+00:00".toList := by decide

end Instant

end ListQuery
