import Mathlib.Order.Basic
import Tablespace.Proofs.ByteOrder
import Tablespace.Value.Calendar

/-! # Dates in order

A date is a day of a month. Counted from a March, the months of all years are in a row, and a day
falls in the last of them that does not begin after it. So days are in the order of their years,
then of their months and then of the days of these.

* `Date.daysBefore`: the days before a month.
* `Date.ofDays_spec`: the month of a date, and its place in it.
* `Date.compare_ofDays`: days are in the order of their dates. -/

namespace Tablespace.Date

/-! ### Years -/

/-- A day of 400 years falls in a century, in four years of it, in one of these, and in its days.
The last day of a leap year is that of the last of four years, and not that of a century, except
for the last. -/
theorem exists_cycles {n : Nat} (h : n < 146097) :
    ∃ b q r d, n = 36524 * b + 1461 * q + 365 * r + d ∧ b ≤ 3 ∧ q ≤ 24 ∧ r ≤ 3 ∧ d ≤ 365 ∧
      (d = 365 → r = 3 ∧ (q = 24 → b = 3)) := by
  by_cases hl : n = 146096
  · exact ⟨3, 24, 3, 365, by omega⟩
  · refine ⟨n / 36524, n % 36524 / 1461, min (n % 36524 % 1461 / 365) 3,
      n % 36524 % 1461 - 365 * min (n % 36524 % 1461 / 365) 3, ?_⟩
    omega

theorem yearOfEra_eq {n b q r d : Nat} (hn : n = 36524 * b + 1461 * q + 365 * r + d) (hb : b ≤ 3)
    (hq : q ≤ 24) (hr : r ≤ 3) (hd : d ≤ 365) (hleap : d = 365 → r = 3 ∧ (q = 24 → b = 3)) :
    (n - n / 1460 + n / 36524 - n / 146096) / 365 = 100 * b + 4 * q + r := by
  have hyear : 365 * r + d ≤ 1460 := by omega
  have hcentury : 1461 * q + (365 * r + d) ≤ 36524 := by omega
  have hlast : 1461 * q + (365 * r + d) = 36524 → b = 3 ∧ d = 365 := by omega
  have hfour : n / 1460 = 25 * b + q ∨ n / 1460 = 25 * b + q + 1 := by omega
  by_cases hl : 1461 * q + (365 * r + d) = 36524
  · obtain ⟨rfl, rfl⟩ := hlast hl
    omega
  · have hb' : n / 36524 = b := by omega
    have hz : n / 146096 = 0 := by omega
    omega

/-- The days before a year. -/
def yearDays (year : Int) : Int := 365 * year + year / 4 - year / 100 + year / 400

theorem yearDays_add (year era : Int) :
    yearDays (year + 400 * era) = yearDays year + 146097 * era := by
  unfold yearDays
  omega

theorem yearDays_lt_succ (year : Int) : yearDays year + 365 ≤ yearDays (year + 1) := by
  unfold yearDays
  omega

/-- The year of a day of 400 years, and the day of that year. -/
theorem yearOfEra_spec {n : Nat} (h : n < 146097) :
    ∃ y d : Nat, (n - n / 1460 + n / 36524 - n / 146096) / 365 = y ∧
      n - (365 * y + y / 4 - y / 100) = d ∧ d ≤ 365 ∧ (n : Int) = yearDays y + d ∧
      (n : Int) < yearDays (y + 1) := by
  obtain ⟨b, q, r, d, hn, hb, hq, hr, hd, hleap⟩ := exists_cycles h
  have hy := yearOfEra_eq hn hb hq hr hd hleap
  have hfour : (100 * b + 4 * q + r) / 4 = 25 * b + q := by omega
  have hcentury : (100 * b + 4 * q + r) / 100 = b := by omega
  have hdays : yearDays (100 * b + 4 * q + r : Nat) = 36524 * b + 1461 * q + 365 * r := by
    unfold yearDays
    clear hn hy
    omega
  have hnext : d = 365 → yearDays ((100 * b + 4 * q + r : Nat) + 1) =
      yearDays (100 * b + 4 * q + r : Nat) + 366 := by
    intro h365
    obtain ⟨rfl, hlast⟩ := hleap h365
    rw [hdays]
    unfold yearDays
    clear hn hy hfour hcentury hdays
    by_cases hq' : q = 24
    · obtain rfl := hlast hq'
      subst hq'
      decide
    · clear hlast
      omega
  have hstep := yearDays_lt_succ (100 * b + 4 * q + r : Nat)
  refine ⟨100 * b + 4 * q + r, d, hy, ?_, hd, ?_, ?_⟩
  · rw [hfour, hcentury]
    clear hy
    omega
  · rw [hdays]
    clear hy
    omega
  · rw [hdays] at hstep hnext
    clear hy hfour hcentury
    omega

/-! ### Months -/

/-- The days of a year before a month. -/
def monthDays (month : Nat) : Nat := (153 * month + 2) / 5

/-- **The days before a month.** Months are counted from the March of a year 0, and days from its
start. -/
def daysBefore (month : Int) : Int := yearDays (month / 12) + monthDays (month % 12).toNat

/-- The place of the month of a date. -/
def monthIndex (d : Date) : Int := 12 * d.year + d.month - 3

theorem daysBefore_eq (year : Int) {m : Nat} (hm : m ≤ 11) :
    daysBefore (12 * year + m) = yearDays year + monthDays m := by
  have hdiv : (12 * year + m) / 12 = year := by omega
  have hmod : (12 * year + m) % 12 = m := by omega
  rw [daysBefore, hdiv, hmod, Int.toNat_natCast]

theorem daysBefore_succ (year : Int) {m : Nat} (hm : m ≤ 11) :
    daysBefore (12 * year + m + 1) =
      if m = 11 then yearDays (year + 1) else yearDays year + monthDays (m + 1) := by
  split
  · next h =>
    have hnext : 12 * year + m + 1 = 12 * (year + 1) + (0 : Nat) := by omega
    have hzero : monthDays 0 = 0 := rfl
    rw [hnext, daysBefore_eq (year + 1) (by omega), hzero, Int.natCast_zero, Int.add_zero]
  · have hnext : 12 * year + m + 1 = 12 * year + (m + 1 : Nat) := by omega
    rw [hnext, daysBefore_eq year (by omega)]

theorem monthDays_lt_succ (m : Nat) : monthDays m < monthDays (m + 1) := by
  unfold monthDays
  omega

theorem monthDays_le {m : Nat} (h : m ≤ 11) : monthDays m ≤ 337 := by
  unfold monthDays
  omega

theorem daysBefore_lt_succ (m : Int) : daysBefore m < daysBefore (m + 1) := by
  obtain ⟨k, hk⟩ : ∃ k : Nat, m % 12 = k := ⟨(m % 12).toNat, by omega⟩
  have hk11 : k ≤ 11 := by omega
  have hm : m = 12 * (m / 12) + k := by omega
  have hyear := yearDays_lt_succ (m / 12)
  have hlt := monthDays_lt_succ k
  have hle := monthDays_le hk11
  rw [hm, daysBefore_eq _ hk11, daysBefore_succ _ hk11]
  clear hm hk
  split <;> omega

theorem daysBefore_mono {m n : Int} (h : m ≤ n) : daysBefore m ≤ daysBefore n := by
  obtain ⟨k, rfl⟩ : ∃ k : Nat, n = m + k := ⟨(n - m).toNat, by omega⟩
  clear h
  induction k with
  | zero => rw [Int.natCast_zero, Int.add_zero]
  | succ k ih =>
    have hlt := daysBefore_lt_succ (m + k)
    rw [show m + ((k + 1 : Nat) : Int) = m + k + 1 by push_cast; omega]
    omega

/-- The month of a day of a year. -/
theorem monthDays_spec {d m : Nat} (h : (5 * d + 2) / 153 = m) :
    monthDays m ≤ d ∧ d < monthDays (m + 1) := by
  unfold monthDays
  omega

/-- **The month of a date, and its place in it.** -/
theorem ofDays_spec (days : Int) :
    (1 ≤ (ofDays days).month ∧ (ofDays days).month ≤ 12) ∧
      (1 ≤ (ofDays days).day ∧ (ofDays days).day ≤ 31) ∧
      days + 719468 = daysBefore (ofDays days).monthIndex + ((ofDays days).day - 1) ∧
      days + 719468 < daysBefore ((ofDays days).monthIndex + 1) := by
  obtain ⟨era, hera⟩ : ∃ era, (days + 719468) / 146097 = era := ⟨_, rfl⟩
  obtain ⟨n, hn⟩ : ∃ n : Nat, (days + 719468) % 146097 = n :=
    ⟨((days + 719468) % 146097).toNat, by omega⟩
  have hdays : days + 719468 = 146097 * era + n := by omega
  obtain ⟨y, d, hy, hsub, hd365, hd, hnext⟩ := yearOfEra_spec (n := n) (by omega)
  obtain ⟨m, hm⟩ : ∃ m, (5 * d + 2) / 153 = m := ⟨_, rfl⟩
  obtain ⟨hle, hlt⟩ := monthDays_spec hm
  have hdate : ofDays days =
      { year := y + era * 400 + (if (if m < 10 then m + 3 else m - 9) ≤ 2 then 1 else 0)
        month := if m < 10 then m + 3 else m - 9
        day := d - monthDays m + 1 } := by
    unfold ofDays
    simp only [hera, hn, Int.toNat_natCast, hy, hsub, hm]
    rfl
  have hm11 : m ≤ 11 := by
    clear hy hsub
    omega
  have h31 : monthDays (m + 1) ≤ monthDays m + 31 := by
    unfold monthDays
    clear hy hsub hn hera
    omega
  clear hy hsub hn hera hm
  have hindex : (ofDays days).monthIndex = 12 * (y + 400 * era) + m := by
    rw [hdate, monthIndex]
    simp only
    clear hdate hdays hd hnext
    split <;> split <;> omega
  refine ⟨?_, ?_, ?_, ?_⟩
  · rw [hdate]
    simp only
    split <;> omega
  · rw [hdate]
    simp only
    omega
  · rw [hindex, hdate, daysBefore_eq _ hm11, yearDays_add]
    simp only
    omega
  · have hera : yearDays (y + 400 * era + 1) = yearDays (y + 1) + 146097 * era := by
      rw [← yearDays_add]
      congr 1
      omega
    rw [hindex, daysBefore_succ _ hm11, yearDays_add, hera]
    clear hdate hindex
    split <;> omega

/-! ### The order of days -/

/-- A day of an earlier month is an earlier day. -/
theorem lt_of_monthIndex_lt {a b : Int} (h : (ofDays a).monthIndex < (ofDays b).monthIndex) :
    a < b := by
  obtain ⟨-, -, -, ha⟩ := ofDays_spec a
  obtain ⟨-, ⟨hday, -⟩, hb, -⟩ := ofDays_spec b
  have hle := daysBefore_mono (show (ofDays a).monthIndex + 1 ≤ (ofDays b).monthIndex from h)
  omega

/-- Days of one month are in the order of their places in it. -/
theorem compare_of_monthIndex_eq {a b : Int} (h : (ofDays a).monthIndex = (ofDays b).monthIndex) :
    compare a b = compare (ofDays a).day (ofDays b).day := by
  obtain ⟨-, -, ha, -⟩ := ofDays_spec a
  obtain ⟨-, -, hb, -⟩ := ofDays_spec b
  rw [h] at ha
  exact compare_congr (by omega) (by omega) (by omega)

/-- **Days are in the order of their dates.** -/
theorem compare_ofDays (a b : Int) :
    compare a b = (compare (ofDays a).year (ofDays b).year).then
      ((compare (ofDays a).month (ofDays b).month).then
        (compare (ofDays a).day (ofDays b).day)) := by
  obtain ⟨hma, -, -, -⟩ := ofDays_spec a
  obtain ⟨hmb, -, -, -⟩ := ofDays_spec b
  have index : ∀ d : Date, d.monthIndex = 12 * d.year + d.month - 3 := fun _ => rfl
  have ha := index (ofDays a)
  have hb := index (ofDays b)
  rcases lt_trichotomy (ofDays a).year (ofDays b).year with hy | hy | hy
  · rw [compare_lt_iff_lt.mpr hy, compare_lt_iff_lt.mpr (lt_of_monthIndex_lt (by omega))]
    rfl
  · rw [compare_eq_iff_eq.mpr hy]
    rcases lt_trichotomy (ofDays a).month (ofDays b).month with hm | hm | hm
    · rw [compare_lt_iff_lt.mpr hm, compare_lt_iff_lt.mpr (lt_of_monthIndex_lt (by omega))]
      rfl
    · rw [compare_eq_iff_eq.mpr hm]
      exact compare_of_monthIndex_eq (by omega)
    · rw [compare_gt_iff_gt.mpr hm, compare_gt_iff_gt.mpr (lt_of_monthIndex_lt (by omega))]
      rfl
  · rw [compare_gt_iff_gt.mpr hy, compare_gt_iff_gt.mpr (lt_of_monthIndex_lt (by omega))]
    rfl

/-- Days around those of a word of seconds have a year of four digits, which is not zero. -/
theorem year_of_days {days : Int} (hlow : -600000 ≤ days) (hhigh : days ≤ 2900000) :
    0 < (ofDays days).year ∧ (ofDays days).year ≤ 9999 := by
  obtain ⟨⟨hm1, hm12⟩, ⟨hd1, -⟩, hd, hnext⟩ := ofDays_spec days
  have index : (ofDays days).monthIndex = 12 * (ofDays days).year + (ofDays days).month - 3 := rfl
  constructor
  · by_contra hy
    have hle := daysBefore_mono (show (ofDays days).monthIndex + 1 ≤ 10 by omega)
    have hten : daysBefore 10 = 306 := by decide
    omega
  · by_contra hy
    have hle := daysBefore_mono (show 119998 ≤ (ofDays days).monthIndex by omega)
    have hmany : daysBefore 119998 = 3652365 := by decide
    omega

end Tablespace.Date
