import Mathlib.Algebra.BigOperators.Group.Finset.Basic
import Tablespace.Proofs.TemporalOrder

/-! # The calendar

Dates are cut from a count of days by the eras of 400 years and the years from March. Here the
calendar is put down by itself, by its leap years and the lengths of its months, and the days are
counted year by year and month by month, into the years before 1970 too. Both go together.

* `Date.IsCivil`, `Date.count`: dates of the calendar, and the days from 1970-01-01 to them.
* `Date.count_ofDays`, `Date.ofDays_count`: the dates of all days are those of the calendar.
* `Moment`: a date and a time of that day. `Temporal.timestamp?_eq`: what a stored timestamp shows.
* `Column.timestamps_civil`: all of this, and timestamps show the moment of their second. -/

namespace Tablespace

namespace Date

/-! ### Years and months -/

/-- **Leap years**: every fourth year, but of the last years of centuries only every fourth. -/
def IsLeap (year : Int) : Prop := year % 4 = 0 ∧ (year % 100 ≠ 0 ∨ year % 400 = 0)

instance : DecidablePred IsLeap := fun year => by unfold IsLeap; infer_instance

/-- The days of a year. -/
def yearLength (year : Int) : Nat := if IsLeap year then 366 else 365

/-- The days of a month of a year. -/
def monthLength (year : Int) (month : Nat) : Nat :=
  if month = 2 then if IsLeap year then 29 else 28
  else if month = 4 ∨ month = 6 ∨ month = 9 ∨ month = 11 then 30 else 31

/-- **Dates of the calendar**: days that their month has. -/
structure IsCivil (d : Date) : Prop where
  month : 1 ≤ d.month ∧ d.month ≤ 12
  day : 1 ≤ d.day ∧ d.day ≤ monthLength d.year d.month

/-- The days from the start of 1970 to the start of a year, negative for the years before. -/
def countYears (year : Int) : Int :=
  ∑ i ∈ Finset.range (year - 1970).toNat, (yearLength (1970 + i) : Int) -
    ∑ i ∈ Finset.range (1970 - year).toNat, (yearLength (1969 - i) : Int)

/-- The days of a year before a month. -/
def countMonths (year : Int) (month : Nat) : Int :=
  ∑ i ∈ Finset.range (month - 1), (monthLength year (i + 1) : Int)

/-- **The days from 1970-01-01 to a date**: those of the years between, of the months before its
month, and the days before its day. -/
def count (d : Date) : Int := countYears d.year + countMonths d.year d.month + (d.day - 1)

/-! ### Years from March -/

/-- A year that is counted from March ends with the February of the next. -/
theorem yearDays_succ (year : Int) :
    yearDays (year + 1) = yearDays year + yearLength (year + 1) := by
  unfold yearDays yearLength
  by_cases h : IsLeap (year + 1)
  · rw [if_pos h]
    unfold IsLeap at h
    omega
  · rw [if_neg h]
    unfold IsLeap at h
    omega

theorem countYears_succ (year : Int) :
    countYears (year + 1) = countYears year + yearLength year := by
  unfold countYears
  by_cases h : 1970 ≤ year
  · obtain ⟨n, rfl⟩ : ∃ n : Nat, year = 1970 + n := ⟨(year - 1970).toNat, by omega⟩
    rw [show (1970 + (n : Int) + 1 - 1970).toNat = n + 1 by omega,
      show (1970 + (n : Int) - 1970).toNat = n by omega,
      show (1970 - (1970 + (n : Int) + 1)).toNat = 0 by omega,
      show (1970 - (1970 + (n : Int))).toNat = 0 by omega, Finset.sum_range_succ]
    omega
  · obtain ⟨n, rfl⟩ : ∃ n : Nat, year = 1969 - n := ⟨(1969 - year).toNat, by omega⟩
    rw [show (1969 - (n : Int) + 1 - 1970).toNat = 0 by omega,
      show (1969 - (n : Int) - 1970).toNat = 0 by omega,
      show (1970 - (1969 - (n : Int) + 1)).toNat = n by omega,
      show (1970 - (1969 - (n : Int))).toNat = n + 1 by omega, Finset.sum_range_succ]
    omega

theorem countYears_eq (year : Int) : countYears year = yearDays (year - 1) - yearDays 1969 := by
  induction year using Int.inductionOn' (b := 1970) with
  | zero => rfl
  | succ year _ ih =>
    have hcount := countYears_succ year
    have hdays := yearDays_succ (year - 1)
    rw [show year - 1 + 1 = year by omega] at hdays
    rw [show year + 1 - 1 = year by omega]
    omega
  | pred year _ ih =>
    have hcount := countYears_succ (year - 1)
    have hdays := yearDays_succ (year - 1 - 1)
    rw [show year - 1 + 1 = year by omega] at hcount
    rw [show year - 1 - 1 + 1 = year - 1 by omega] at hdays
    omega

theorem daysBefore_january (year : Int) :
    daysBefore (12 * year - 2) = yearDays (year - 1) + 306 := by
  have hmonth : 12 * year - 2 = 12 * (year - 1) + (10 : Nat) := by omega
  rw [hmonth, daysBefore_eq (year - 1) (by omega)]
  rfl

/-- The days from a month to the next are those of the month. -/
theorem daysBefore_next (year : Int) {month : Nat} (h : 1 ≤ month ∧ month ≤ 12) :
    daysBefore (12 * year + month - 3 + 1) =
      daysBefore (12 * year + month - 3) + monthLength year month := by
  by_cases hmarch : 3 ≤ month
  · obtain ⟨m, rfl⟩ : ∃ m, month = m + 3 := ⟨month - 3, by omega⟩
    have hm : m ≤ 9 := by omega
    have hlength : ∀ k : Fin 10,
        monthDays (k.val + 1) = monthDays k.val + monthLength 1 (k.val + 3) := by
      decide
    -- the leap day comes last in a year from March, so these months are as long in any year
    have hyear : monthLength year (m + 3) = monthLength 1 (m + 3) := by
      have h2 : m + 3 ≠ 2 := by omega
      simp only [monthLength, h2, if_false]
    have hm' := hlength ⟨m, by omega⟩
    simp only at hm'
    rw [show 12 * year + ((m + 3 : Nat) : Int) - 3 = 12 * year + m by omega,
      daysBefore_succ year (by omega), if_neg (by omega), daysBefore_eq year (by omega), hyear]
    omega
  -- January and February end the year that began in the March before
  · have hfeb := yearDays_succ (year - 1)
    rw [show year - 1 + 1 = year by omega] at hfeb
    rcases (show month = 1 ∨ month = 2 by omega) with rfl | rfl
    · rw [show 12 * year + ((1 : Nat) : Int) - 3 = 12 * (year - 1) + (10 : Nat) by omega,
        daysBefore_succ (year - 1) (by omega), if_neg (by omega), daysBefore_eq _ (by omega)]
      have h10 : monthDays 10 = 306 := rfl
      have h11 : monthDays (10 + 1) = 337 := rfl
      have hlength : monthLength year 1 = 31 := rfl
      omega
    · have h11 : monthDays 11 = 337 := rfl
      rw [show 12 * year + ((2 : Nat) : Int) - 3 = 12 * (year - 1) + (11 : Nat) by omega,
        daysBefore_succ (year - 1) (by omega), if_pos rfl, daysBefore_eq _ (by omega), h11,
        show year - 1 + 1 = year by omega]
      unfold yearLength at hfeb
      unfold monthLength
      by_cases hleap : IsLeap year
      · rw [if_pos hleap] at hfeb
        rw [if_pos rfl, if_pos hleap]
        omega
      · rw [if_neg hleap] at hfeb
        rw [if_pos rfl, if_neg hleap]
        omega

/-! ### Dates of days -/

theorem daysBefore_month (year : Int) {n : Nat} (h : n ≤ 11) :
    daysBefore (12 * year + (n + 1 : Nat) - 3) =
      yearDays (year - 1) + 306 + countMonths year (n + 1) := by
  induction n with
  | zero =>
    have hjanuary := daysBefore_january year
    rw [show 12 * year + ((0 + 1 : Nat) : Int) - 3 = 12 * year - 2 by omega, hjanuary]
    simp [countMonths]
  | succ n ih =>
    have hprev := ih (by omega)
    have hnext := daysBefore_next year (show 1 ≤ n + 1 ∧ n + 1 ≤ 12 by omega)
    have hmonths : countMonths year (n + 1 + 1) =
        countMonths year (n + 1) + monthLength year (n + 1) := by
      unfold countMonths
      rw [Nat.add_sub_cancel, Nat.add_sub_cancel, Finset.sum_range_succ]
    have hindex : 12 * year + ((n + 1 + 1 : Nat) : Int) - 3 =
        12 * year + ((n + 1 : Nat) : Int) - 3 + 1 := by omega
    rw [hindex, hnext, hprev, hmonths]
    omega

/-- **The days to a date** are those before its month, and those before it in the month. -/
theorem count_eq {d : Date} (h : 1 ≤ d.month ∧ d.month ≤ 12) :
    d.count + 719468 = daysBefore d.monthIndex + (d.day - 1) := by
  obtain ⟨n, hn⟩ : ∃ n, d.month = n + 1 := ⟨d.month - 1, by omega⟩
  have hmonth := daysBefore_month d.year (n := n) (by omega)
  have hyears := countYears_eq d.year
  have h1969 : yearDays 1969 = 719162 := rfl
  have hindex : d.monthIndex = 12 * d.year + (n + 1 : Nat) - 3 := by
    unfold monthIndex
    omega
  rw [hindex, hmonth, count, hyears, h1969, hn]
  omega

/-- A date of the calendar comes before the month after its own. -/
theorem IsCivil.before_next {d : Date} (h : d.IsCivil) :
    daysBefore d.monthIndex + (d.day - 1) < daysBefore (d.monthIndex + 1) := by
  have hnext := daysBefore_next d.year h.month
  have hday := h.day
  unfold monthIndex
  omega

theorem isCivil_ofDays (days : Int) : (ofDays days).IsCivil := by
  obtain ⟨hmonth, ⟨hday, -⟩, hdays, hbefore⟩ := ofDays_spec days
  have hnext := daysBefore_next (ofDays days).year hmonth
  refine ⟨hmonth, hday, ?_⟩
  unfold monthIndex at hdays hbefore
  omega

/-- **Counting the days to the date of a day** gives the day. -/
theorem count_ofDays (days : Int) : (ofDays days).count = days := by
  obtain ⟨hmonth, -, hdays, -⟩ := ofDays_spec days
  have hcount := count_eq hmonth
  omega

/-- Dates of one count are the same. -/
theorem IsCivil.eq_of_count {a b : Date} (ha : a.IsCivil) (hb : b.IsCivil)
    (h : a.count = b.count) : a = b := by
  have hca := count_eq ha.month
  have hcb := count_eq hb.month
  have hna := ha.before_next
  have hnb := hb.before_next
  -- a date of an earlier month has fewer days before it than that month has after its start
  have hindex : a.monthIndex = b.monthIndex := by
    have hda := ha.day
    have hdb := hb.day
    rcases lt_trichotomy a.monthIndex b.monthIndex with hlt | heq | hgt
    · have hle := daysBefore_mono (show a.monthIndex + 1 ≤ b.monthIndex from hlt)
      omega
    · exact heq
    · have hle := daysBefore_mono (show b.monthIndex + 1 ≤ a.monthIndex from hgt)
      omega
  rw [hindex] at hca
  have hma := ha.month
  have hmb := hb.month
  unfold monthIndex at hindex
  obtain ⟨y, m, d⟩ := a
  obtain ⟨y', m', d'⟩ := b
  simp only at *
  obtain rfl : y = y' := by omega
  obtain rfl : m = m' := by omega
  obtain rfl : d = d' := by
    have hda := ha.day
    have hdb := hb.day
    simp only at hda hdb
    omega
  rfl

/-- **The date of the days to a date** is the date. -/
theorem ofDays_count {d : Date} (h : d.IsCivil) : ofDays d.count = d :=
  (isCivil_ofDays _).eq_of_count h (count_ofDays _)

/-- A date comes before another, by years, then by months and then by days. -/
def Before (a b : Date) : Prop :=
  a.year < b.year ∨ a.year = b.year ∧ (a.month < b.month ∨ a.month = b.month ∧ a.day < b.day)

theorem before_ofDays_iff (a b : Int) : (ofDays a).Before (ofDays b) ↔ a < b := by
  have horder := compare_ofDays a b
  rw [← compare_lt_iff_lt, horder]
  simp only [Before, Ordering.then_eq_lt, compare_lt_iff_lt, compare_eq_iff_eq]

end Date

/-! ### Seconds -/

/-- **A moment**: a date, and a time of that day. -/
structure Moment where
  date : Date
  hour : Nat
  minute : Nat
  second : Nat

namespace Moment

/-- **Moments of the calendar.** -/
structure IsCivil (m : Moment) : Prop where
  date : m.date.IsCivil
  hour : m.hour < 24
  minute : m.minute < 60
  second : m.second < 60

/-- The seconds from the start of 1970 to a moment. -/
def count (m : Moment) : Int := m.date.count * 86400 + ((m.hour * 60 + m.minute) * 60 + m.second)

/-- The text of a moment: a year of four digits, and two digits for all else. -/
def text (m : Moment) : List Char :=
  Numeral.padded 4 m.date.year.toNat ++ '-' :: Numeral.padded 2 m.date.month ++
    '-' :: Numeral.padded 2 m.date.day ++ ' ' :: Numeral.padded 2 m.hour ++
    ':' :: Numeral.padded 2 m.minute ++ ':' :: Numeral.padded 2 m.second

/-- The moment of a second, counted from the start of 1970. -/
def ofSecond (second : Int) : Moment where
  date := Date.ofDays (second / 86400)
  hour := (second % 86400).toNat / 3600
  minute := (second % 86400).toNat % 3600 / 60
  second := (second % 86400).toNat % 60

theorem isCivil_ofSecond (second : Int) : (ofSecond second).IsCivil where
  date := Date.isCivil_ofDays _
  hour := by
    show (second % 86400).toNat / 3600 < 24
    omega
  minute := by
    show (second % 86400).toNat % 3600 / 60 < 60
    omega
  second := by
    show (second % 86400).toNat % 60 < 60
    omega

theorem count_ofSecond (second : Int) : (ofSecond second).count = second := by
  unfold count ofSecond
  simp only [Date.count_ofDays]
  omega

/-- Moments of one count are the same. -/
theorem IsCivil.eq_of_count {a b : Moment} (ha : a.IsCivil) (hb : b.IsCivil)
    (h : a.count = b.count) : a = b := by
  obtain ⟨da, ha24, ha60, ha60'⟩ := ha
  obtain ⟨db, hb24, hb60, hb60'⟩ := hb
  obtain ⟨date, hour, minute, second⟩ := a
  obtain ⟨date', hour', minute', second'⟩ := b
  unfold count at h
  simp only at *
  obtain rfl : date = date' := da.eq_of_count db (by omega)
  obtain rfl : hour = hour' := by omega
  obtain rfl : minute = minute' := by omega
  obtain rfl : second = second' := by omega
  rfl

end Moment

namespace Temporal
variable {digits : Nat}

theorem renderSecond_eq {second : Int} (h : IsShown second) :
    renderSecond second = (Moment.ofSecond second).text := by
  obtain ⟨y, hy, -, -⟩ := h.year
  unfold renderSecond Moment.text Moment.ofSecond renderDate renderClock
  simp only [hy, paddedInt_natCast, Int.toNat_natCast, List.append_assoc, List.cons_append]

/-- **The text of a fraction** that stands in up to three bytes: the first digits of the six of its
microseconds. -/
def partText (digits : Nat) (part : List UInt8) : List Char :=
  if part = [] then []
  else '.' :: (Numeral.padded 6 (bigEndian part * 100 ^ (3 - part.length))).take digits

theorem fraction_eq_partText {bytes : List UInt8} (h : bytes.length = fractionBytes digits) :
    fraction digits bytes = partText digits bytes := by
  unfold fraction partText
  by_cases hnil : bytes = []
  · rw [if_pos hnil, if_pos hnil]
  · have hpos : 0 < fractionBytes digits := by
      rw [← h]
      exact List.length_pos_iff.mpr hnil
    have hfew : ∀ n, 0 < fractionBytes n → 1 ≤ n ∧ n ≤ 6 ∧
        fractionUnit (fractionBytes n) = 100 ^ (3 - fractionBytes n) := by
      intro n hn
      unfold fractionBytes at hn ⊢
      split at hn <;> simp [fractionUnit] at hn ⊢
    obtain ⟨h1, h6, hunit⟩ := hfew digits hpos
    rw [if_neg hnil, if_neg hnil, renderFraction, if_neg (by omega), h, hunit,
      show min digits 6 = digits by omega]

/-- The second of a stored timestamp and an offset. -/
theorem isShown_of_bytes {offset : Int} (ho : -2 ^ 31 ≤ offset ∧ offset < 2 ^ 31)
    {bytes : List UInt8} (h : 4 ≤ bytes.length) : IsShown (bigEndian (bytes.take 4) + offset) := by
  have hlt := bigEndian_lt (bytes.take 4)
  rw [List.length_take, show min 4 bytes.length = 4 by omega,
    show Nat.pow 256 4 = 2 ^ 32 from rfl] at hlt
  unfold IsShown
  omega

/-- **What a stored timestamp is shown as**: the moment that its seconds and the offset come to, and
its fraction. -/
theorem timestamp?_eq {offset : Int} (ho : -2 ^ 31 ≤ offset ∧ offset < 2 ^ 31) {bytes : List UInt8}
    (hsize : bytes.length = 4 + fractionBytes digits) (hne : bigEndian (bytes.take 4) ≠ 0) :
    timestamp? digits offset bytes =
      some ((Moment.ofSecond (bigEndian (bytes.take 4) + offset)).text ++
        partText digits (bytes.drop 4)) := by
  have hshown : IsShown (bigEndian (bytes.take 4) + offset) := isShown_of_bytes ho (by omega)
  have hpart : (bytes.drop 4).length = fractionBytes digits := by
    rw [List.length_drop]
    omega
  unfold timestamp?
  simp only [if_pos hsize, if_neg hne, renderSecond_eq hshown, fraction_eq_partText hpart]

end Temporal

namespace Column

/-- **Timestamps show the true date and time.** Each day has a date of the calendar, to which the
days from 1970-01-01 are counted, no date is left out, and later days have later dates. So the text
of a stored timestamp other than zero is that of the one moment to which its seconds and the offset
are counted, and its fraction. -/
theorem timestamps_civil :
    (∀ days, (Date.ofDays days).IsCivil ∧ (Date.ofDays days).count = days) ∧
    (∀ d : Date, d.IsCivil → Date.ofDays d.count = d) ∧
    (∀ a b, (Date.ofDays a).Before (Date.ofDays b) ↔ a < b) ∧
    ∀ (c : Column) (digits : Nat) (offset : Int) (bytes : List UInt8), c.type = .timestamp digits →
      -2 ^ 31 ≤ offset ∧ offset < 2 ^ 31 → bytes.length = 4 + fractionBytes digits →
      bigEndian (bytes.take 4) ≠ 0 →
      ∃ m : Moment, (m.IsCivil ∧ m.count = bigEndian (bytes.take 4) + offset) ∧
        (∀ n : Moment, n.IsCivil → n.count = bigEndian (bytes.take 4) + offset → n = m) ∧
        (0 < m.date.year ∧ m.date.year ≤ 9999) ∧
        c.decode offset bytes =
          .str (String.ofList (m.text ++ Temporal.partText digits (bytes.drop 4))) := by
  refine ⟨fun days => ⟨Date.isCivil_ofDays days, Date.count_ofDays days⟩,
    fun d => Date.ofDays_count, Date.before_ofDays_iff, ?_⟩
  intro c digits offset bytes hc ho hsize hne
  obtain ⟨s, hs⟩ : ∃ s : Int, (bigEndian (bytes.take 4) : Int) + offset = s := ⟨_, rfl⟩
  have hshown := Temporal.isShown_of_bytes ho (show 4 ≤ bytes.length by omega)
  have htext := Temporal.timestamp?_eq ho hsize hne
  rw [hs] at hshown htext
  rw [hs]
  have hcivil := Moment.isCivil_ofSecond s
  have hcount := Moment.count_ofSecond s
  obtain ⟨y, hy, hpos, hlt⟩ := hshown.year
  refine ⟨Moment.ofSecond s, ⟨hcivil, hcount⟩, fun n hn hns => ?_, ?_, ?_⟩
  · exact hn.eq_of_count hcivil (hns.trans hcount.symm)
  · have hyear : (Moment.ofSecond s).date.year = y := hy
    omega
  · unfold decode
    rw [hc]
    simp only [htext, Value.ofText]

/-- The first second of 1970 and 123 milliseconds, shown with an offset that leads back to 1969. -/
theorem timestamps_civil_first :
    (-2 ^ 31 ≤ (-3600 : Int) ∧ (-3600 : Int) < 2 ^ 31) ∧
    ([0, 0, 0, 1, 0x04, 0xCE] : List UInt8).length = 4 + fractionBytes 3 ∧
    bigEndian ([0, 0, 0, 1, 0x04, 0xCE].take 4) ≠ 0 ∧
    ∃ m : Moment, (m.IsCivil ∧ m.count = -3599) ∧
      (ofType "seen" (.timestamp 3)).decode (-3600) [0, 0, 0, 1, 0x04, 0xCE] =
        .str (String.ofList (m.text ++ ".123".toList)) := by
  have ho : -2 ^ 31 ≤ (-3600 : Int) ∧ (-3600 : Int) < 2 ^ 31 := by decide
  have hne : bigEndian ([0, 0, 0, 1, 0x04, 0xCE].take 4) ≠ 0 := by decide
  have hsecond : (bigEndian ([0, 0, 0, 1, 0x04, 0xCE].take 4) : Int) + -3600 = -3599 := by decide
  have hpart : Temporal.partText 3 ([0, 0, 0, 1, 0x04, 0xCE].drop 4) = ".123".toList := by
    decide +kernel
  obtain ⟨m, hm, -, -, htext⟩ := timestamps_civil.2.2.2 (ofType "seen" (.timestamp 3)) 3 (-3600)
    [0, 0, 0, 1, 0x04, 0xCE] rfl ho rfl hne
  rw [hsecond] at hm
  rw [hpart] at htext
  exact ⟨ho, rfl, hne, m, hm, htext⟩

example : (ofType "seen" (.timestamp 3)).decode (-3600) [0, 0, 0, 1, 0x04, 0xCE] =
    .str "1969-12-31 23:00:01.123" := by
  decide +kernel

end Column
end Tablespace
