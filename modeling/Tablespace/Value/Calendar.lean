import Tablespace.Text.Numeral

/-! # Calendar

Dates are those of the Gregorian calendar, carried on before its adoption. A year is taken to begin
in March, so that a leap day comes last and 400 years are 146097 days.

* `Date.ofDays`: the date of a day, counted from 1970-01-01.
* `renderDate`, `renderClock`: dates and times of day as text. -/

namespace Tablespace

/-- **A date.** -/
structure Date where
  year : Int
  month : Nat
  day : Nat
  deriving DecidableEq, Repr

/-- **The date of a day**, counted from 1970-01-01. -/
def Date.ofDays (days : Int) : Date :=
  let z := days + 719468
  let era := z / 146097
  let dayOfEra := (z % 146097).toNat
  let yearOfEra := (dayOfEra - dayOfEra / 1460 + dayOfEra / 36524 - dayOfEra / 146096) / 365
  let dayOfYear := dayOfEra - (365 * yearOfEra + yearOfEra / 4 - yearOfEra / 100)
  let monthFromMarch := (5 * dayOfYear + 2) / 153
  let month := if monthFromMarch < 10 then monthFromMarch + 3 else monthFromMarch - 9
  { year := yearOfEra + era * 400 + (if month ≤ 2 then 1 else 0)
    month
    day := dayOfYear - (153 * monthFromMarch + 2) / 5 + 1 }

/-- A date as text: four digits of the year, two of month and day. -/
def renderDate (year : Int) (month day : Nat) : List Char :=
  Numeral.paddedInt 4 year ++ '-' :: Numeral.padded 2 month ++ '-' :: Numeral.padded 2 day

/-- A time of day, or hours of a longer time, as text. -/
def renderClock (hour minute second : Nat) : List Char :=
  Numeral.padded 2 hour ++ ':' :: Numeral.padded 2 minute ++ ':' :: Numeral.padded 2 second

/-- The first digits of a fraction of a second behind their point, none of them and no point for
zero digits. -/
def renderFraction (digits micros : Nat) : List Char :=
  if digits = 0 then [] else '.' :: (Numeral.padded 6 micros).take (min digits 6)

end Tablespace
