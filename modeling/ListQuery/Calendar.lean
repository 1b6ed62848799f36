set_option autoImplicit false

/-!
Dates of the Gregorian calendar, extended to all years, from a count of days since 1970-01-01.
-/

namespace ListQuery

/-- A date; the year before year 1 is year 0. -/
structure CalendarDate where
  year : Int
  month : Nat
  day : Nat
  deriving DecidableEq, Repr

namespace CalendarDate

/-- Days from 0000-03-01, where a calendar of years from March starts, to 1970-01-01. -/
def daysToEpoch : Int := 719468

/-- The calendar repeats every 400 years, which are 146097 days. In years from March the leap day
comes last, so the months have the lengths 31, 30, 31, 30, 31 over and over: month `m` starts on
day `(153 * m + 2) / 5`. -/
def ofEpochDay (epochDay : Int) : CalendarDate :=
  let shifted := epochDay + daysToEpoch
  let cycle := shifted / 146097
  let dayOfCycle := (shifted % 146097).toNat
  let yearOfCycle :=
    (dayOfCycle - dayOfCycle / 1460 + dayOfCycle / 36524 - dayOfCycle / 146096) / 365
  let dayOfYear := dayOfCycle - (365 * yearOfCycle + yearOfCycle / 4 - yearOfCycle / 100)
  let monthFromMarch := (5 * dayOfYear + 2) / 153
  let day := dayOfYear - (153 * monthFromMarch + 2) / 5 + 1
  let yearFromMarch := cycle * 400 + yearOfCycle
  if monthFromMarch < 10 then ⟨yearFromMarch, monthFromMarch + 3, day⟩
  else ⟨yearFromMarch + 1, monthFromMarch - 9, day⟩

example : ofEpochDay 0 = ⟨1970, 1, 1⟩ := by decide
example : ofEpochDay 19782 = ⟨2024, 2, 29⟩ := by decide
example : ofEpochDay (-719529) = ⟨-1, 12, 31⟩ := by decide
example : ofEpochDay (-25509) = ⟨1900, 2, 28⟩ := by decide
example : ofEpochDay (-25508) = ⟨1900, 3, 1⟩ := by decide

end CalendarDate

end ListQuery
