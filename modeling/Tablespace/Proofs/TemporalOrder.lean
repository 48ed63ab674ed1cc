import Tablespace.Proofs.Civil
import Tablespace.Proofs.Meaning
import Tablespace.Value.Decode

/-! # Dates and times in order

Dates are shown as fields of fixed width, the larger units first, and stored as bit fields in the
same order, or as a count of seconds. So the texts of stored dates are in the order of their bytes.

* `compare_octets_renderDate`, `compare_octets_renderClock`: texts are in the order of their fields.
* `Temporal.IsFraction`: fractions of a second that their digits show.
* `Temporal.IsDate`, `Temporal.IsDateTime`, `Temporal.IsTimestamp`: stored dates, each with the
  theorem that they are in the order of their texts. -/

namespace Tablespace

open Numeral (Digits value value_append value_lt padded)

/-! ### Texts -/

theorem paddedInt_natCast (w n : Nat) : Numeral.paddedInt w n = padded w n := by
  unfold Numeral.paddedInt
  rw [if_neg (by omega), Int.natAbs_natCast]

/-- Texts that begin with dates are in the order of these, and then in that of what follows. -/
theorem compare_octets_renderDate {y y' m m' d d' : Nat} (hy : y < 10000 ∧ y' < 10000)
    (hm : m < 100 ∧ m' < 100) (hd : d < 100 ∧ d' < 100) (cs cs' : List Char) :
    compare (octets (renderDate y m d ++ cs)) (octets (renderDate y' m' d' ++ cs')) =
      (compare y y').then ((compare m m').then
        ((compare d d').then (compare (octets cs) (octets cs')))) := by
  unfold renderDate
  simp only [paddedInt_natCast, List.append_assoc, List.cons_append]
  rw [compare_octets_padded (by omega) hy.1 hy.2, compare_octets_cons,
    compare_octets_padded (by omega) hm.1 hm.2, compare_octets_cons,
    compare_octets_padded (by omega) hd.1 hd.2]

theorem compare_octets_renderClock {h h' m m' s s' : Nat} (hh : h < 100 ∧ h' < 100)
    (hm : m < 100 ∧ m' < 100) (hs : s < 100 ∧ s' < 100) (cs cs' : List Char) :
    compare (octets (renderClock h m s ++ cs)) (octets (renderClock h' m' s' ++ cs')) =
      (compare h h').then ((compare m m').then
        ((compare s s').then (compare (octets cs) (octets cs')))) := by
  unfold renderClock
  simp only [List.append_assoc, List.cons_append]
  rw [compare_octets_padded (by omega) hh.1 hh.2, compare_octets_cons,
    compare_octets_padded (by omega) hm.1 hm.2, compare_octets_cons,
    compare_octets_padded (by omega) hs.1 hs.2]

theorem Value.compare_str (cs ds : List Char) :
    (Value.str (String.ofList cs)).compare (.str (String.ofList ds)) =
      Ord.compare (octets cs) (octets ds) := by
  rw [Value.compare_octets (.str _) (.str _), ← Value.utf8_encode_eq, ← Value.utf8_encode_eq,
    encode_ofList, encode_ofList]

namespace Temporal

/-! ### Fractions -/

/-- **Fractions of a second that their digits show**: they are less than a second, and a multiple of
the last digit. -/
structure IsFraction (digits part : Nat) : Prop where
  stored : part < Nat.pow 256 (fractionBytes digits)
  below : part * fractionUnit (fractionBytes digits) < 1000000
  shown : 10 ^ (6 - digits) ∣ part * fractionUnit (fractionBytes digits)

/-- The digits that are shown of a fraction. -/
def shown (digits micros : Nat) : List Char := (padded 6 micros).take (min digits 6)

theorem digits_shown (digits micros : Nat) : Digits (shown digits micros) :=
  digits_take (digits_padded 6 micros) _

theorem length_shown {digits micros : Nat} (hlt : micros < 1000000) :
    (shown digits micros).length = min digits 6 := by
  rw [shown, List.length_take, length_padded (by omega) hlt]
  omega

/-- The digits that are shown write the whole fraction. -/
theorem value_shown {digits micros : Nat} (hlt : micros < 1000000)
    (hdvd : 10 ^ (6 - digits) ∣ micros) :
    value (shown digits micros) * 10 ^ (6 - min digits 6) = micros := by
  have hpad : (padded 6 micros).length = 6 := length_padded (by omega) hlt
  have hlen : ((padded 6 micros).drop (min digits 6)).length = 6 - min digits 6 := by
    rw [List.length_drop, hpad]
  have hsplit := value_padded 6 micros
  rw [← List.take_append_drop (min digits 6) (padded 6 micros), value_append, hlen,
    ← shown] at hsplit
  have hrest := value_lt_of_length (digits_drop (digits_padded 6 micros) _) hlen
  have hzero : value ((padded 6 micros).drop (min digits 6)) = 0 := by
    rw [show 6 - digits = 6 - min digits 6 by omega, ← hsplit,
      Nat.dvd_add_right (Nat.dvd_mul_left _ _)] at hdvd
    exact Nat.eq_zero_of_dvd_of_lt hdvd hrest
  omega

theorem compare_octets_renderFraction {digits m n : Nat}
    (hm : m < 1000000 ∧ 10 ^ (6 - digits) ∣ m) (hn : n < 1000000 ∧ 10 ^ (6 - digits) ∣ n) :
    compare (octets (renderFraction digits m)) (octets (renderFraction digits n)) =
      compare m n := by
  have hvm := value_shown hm.1 hm.2
  have hvn := value_shown hn.1 hn.2
  unfold renderFraction
  by_cases h0 : digits = 0
  · subst h0
    have hmz := Nat.eq_zero_of_dvd_of_lt hm.2 hm.1
    have hnz := Nat.eq_zero_of_dvd_of_lt hn.2 hn.1
    rw [hmz, hnz]
    rfl
  · have horder := compare_octets_digits (digits_shown digits m) (digits_shown digits n)
      ((length_shown hm.1).trans (length_shown hn.1).symm) [] []
    rw [List.append_nil, List.append_nil, compare_octets_nil, Ordering.then_eq] at horder
    rw [if_neg h0, if_neg h0, compare_octets_cons, ← shown, ← shown, horder,
      ← compare_mul_right (Nat.pow_pos (show 0 < 10 by omega)) (value _), hvm, hvn]

theorem fractionUnit_pos (n : Nat) : 0 < fractionUnit n := by
  unfold fractionUnit
  split <;> omega

/-- **Fractions are in the order of their bytes.** -/
theorem compare_octets_fraction {digits : Nat} {a b : List UInt8}
    (hal : a.length = fractionBytes digits) (hbl : b.length = fractionBytes digits)
    (ha : IsFraction digits (bigEndian a)) (hb : IsFraction digits (bigEndian b)) :
    compare (octets (fraction digits a)) (octets (fraction digits b)) = compare a b := by
  unfold fraction
  by_cases hnil : a = []
  · subst hnil
    rw [List.eq_nil_of_length_eq_zero (hbl.trans hal.symm)]
    rfl
  · have hbnil : b ≠ [] := by
      rintro rfl
      exact hnil (List.eq_nil_of_length_eq_zero (hal.trans hbl.symm))
    rw [if_neg hnil, if_neg hbnil, hal, hbl,
      compare_octets_renderFraction ⟨ha.below, ha.shown⟩ ⟨hb.below, hb.shown⟩,
      compare_mul_right (fractionUnit_pos _), compare_bigEndian (hal.trans hbl.symm)]

/-! ### Bit fields -/

/-- Bytes whose highest bit is set, without it. -/
theorem flipped_add {bytes : List UInt8} (hne : bytes ≠ [])
    (h : Nat.pow 2 (8 * bytes.length - 1) ≤ bigEndian bytes) :
    flipped bytes + Nat.pow 2 (8 * bytes.length - 1) = bigEndian bytes := by
  obtain ⟨n, hn⟩ : ∃ n, 8 * bytes.length = n + 1 :=
    ⟨8 * bytes.length - 1, by have := List.length_pos_iff.mpr hne; omega⟩
  have hlt : bigEndian bytes < 2 * Nat.pow 2 n := by
    have hpow : Nat.pow 256 bytes.length = 2 * Nat.pow 2 n := by
      show 256 ^ bytes.length = 2 * 2 ^ n
      rw [show 256 = 2 ^ 8 from rfl, ← Nat.pow_mul, hn, Nat.pow_succ, Nat.mul_comm]
    rw [← hpow]
    exact bigEndian_lt bytes
  rw [hn, Nat.add_sub_cancel] at h ⊢
  unfold flipped
  rw [hn, Nat.add_sub_cancel]
  have hsum : bigEndian bytes + Nat.pow 2 n = bigEndian bytes - Nat.pow 2 n + 2 * Nat.pow 2 n := by
    omega
  simp only
  rw [hsum, Nat.add_mod_right, Nat.mod_eq_of_lt (by omega)]
  omega

/-- The bit fields of a date. -/
theorem compare_date (m n : Nat) :
    compare m n = (compare (m / 512) (n / 512)).then
      ((compare (m / 32 % 16) (n / 32 % 16)).then (compare (m % 32) (n % 32))) := by
  rw [compare_div_mod (show 0 < 32 by omega) m n,
    compare_div_mod (show 0 < 16 by omega) (m / 32) (n / 32), Nat.div_div_eq_div_mul,
    Nat.div_div_eq_div_mul, Ordering.then_assoc]

/-- The bit fields of a time of day, below those of a date. -/
theorem compare_clock (m n : Nat) :
    compare m n = (compare (m / 0x20000) (n / 0x20000)).then
      ((compare (m / 0x1000 % 32) (n / 0x1000 % 32)).then
        ((compare (m / 64 % 64) (n / 64 % 64)).then (compare (m % 64) (n % 64)))) := by
  rw [compare_div_mod (show 0 < 64 by omega) m n,
    compare_div_mod (show 0 < 64 by omega) (m / 64) (n / 64), Nat.div_div_eq_div_mul,
    Nat.div_div_eq_div_mul, compare_div_mod (show 0 < 32 by omega) (m / (64 * 64)),
    Nat.div_div_eq_div_mul, Nat.div_div_eq_div_mul, Ordering.then_assoc, Ordering.then_assoc]

/-- The fields of a date and time, the months of a year numbered from 0 to 12. -/
theorem compare_dateTime (m n : Nat) :
    compare m n = (compare (m / 0x400000 / 13) (n / 0x400000 / 13)).then
      ((compare (m / 0x400000 % 13) (n / 0x400000 % 13)).then
        ((compare (m / 0x20000 % 32) (n / 0x20000 % 32)).then
          ((compare (m / 0x1000 % 32) (n / 0x1000 % 32)).then
            ((compare (m / 64 % 64) (n / 64 % 64)).then (compare (m % 64) (n % 64)))))) := by
  rw [compare_clock, compare_div_mod (show 0 < 32 by omega) (m / 0x20000) (n / 0x20000),
    Nat.div_div_eq_div_mul, Nat.div_div_eq_div_mul,
    compare_div_mod (show 0 < 13 by omega) (m / (0x20000 * 32)), Ordering.then_assoc,
    Ordering.then_assoc]

/-! ### Stored dates -/

/-- **Stored dates** of years of four digits, the highest bit set. -/
structure IsDate (bytes : List UInt8) : Prop where
  size : bytes.length = 3
  highest : 0x800000 ≤ bigEndian bytes
  year : flipped bytes / 512 ≤ 9999

/-- **Stored dates and times** of years of four digits, the highest bit set. -/
structure IsDateTime (digits : Nat) (bytes : List UInt8) : Prop where
  size : bytes.length = 5 + fractionBytes digits
  highest : 0x8000000000 ≤ bigEndian (bytes.take 5)
  year : flipped (bytes.take 5) / 0x400000 / 13 ≤ 9999
  part : IsFraction digits (bigEndian (bytes.drop 5))

/-- **Stored timestamps.** That of second zero has no fraction. -/
structure IsTimestamp (digits : Nat) (bytes : List UInt8) : Prop where
  size : bytes.length = 4 + fractionBytes digits
  part : IsFraction digits (bigEndian (bytes.drop 4))
  zero : bigEndian (bytes.take 4) = 0 → bigEndian (bytes.drop 4) = 0

variable {digits : Nat} {a b : List UInt8}

theorem compare_flipped (hl : a.length = b.length) (hne : a ≠ [])
    (ha : Nat.pow 2 (8 * a.length - 1) ≤ bigEndian a)
    (hb : Nat.pow 2 (8 * a.length - 1) ≤ bigEndian b) :
    compare (flipped a) (flipped b) = compare a b := by
  have hbne : b ≠ [] := by
    rintro rfl
    exact hne (List.eq_nil_of_length_eq_zero hl)
  have hfa := flipped_add hne ha
  have hfb := flipped_add hbne (by rwa [← hl])
  rw [← hl] at hfb
  rw [compare_bigEndian hl]
  exact compare_congr (by omega) (by omega) (by omega)

/-- **Stored dates are in the order of their texts.** -/
theorem IsDate.compare_decode (ha : IsDate a) (hb : IsDate b) :
    (Value.ofText .str a (date? a)).compare (Value.ofText .str b (date? b)) = compare a b := by
  have hl : a.length = b.length := ha.size.trans hb.size.symm
  have hhalf : Nat.pow 2 (8 * a.length - 1) = 0x800000 := by rw [ha.size]
  have hsize := ha.size
  have hne : a ≠ [] := List.ne_nil_of_length_pos (by omega)
  have hbytes := compare_flipped hl hne (by rw [hhalf]; exact ha.highest)
    (by rw [hhalf]; exact hb.highest)
  have hy := ha.year
  have hy' := hb.year
  unfold date?
  simp only [if_pos ha.size, if_pos hb.size]
  rw [Value.ofText, Value.ofText, Value.compare_str, ← List.append_nil (renderDate _ _ _),
    ← List.append_nil (renderDate (flipped b / 512 : Nat) _ _),
    compare_octets_renderDate (by omega) (by omega) (by omega), compare_octets_nil,
    Ordering.then_eq, ← compare_date, hbytes]

/-- What a date and time is shown as. Its bits above those of the month are not set. -/
theorem IsDateTime.dateTime?_eq (h : IsDateTime digits a) :
    dateTime? digits a = some (
      renderDate (flipped (a.take 5) / 0x400000 / 13 : Nat) (flipped (a.take 5) / 0x400000 % 13)
          (flipped (a.take 5) / 0x20000 % 32) ++
        ' ' :: (renderClock (flipped (a.take 5) / 0x1000 % 32) (flipped (a.take 5) / 64 % 64)
          (flipped (a.take 5) % 64) ++ fraction digits (a.drop 5))) := by
  have hsize := h.size
  have hlen : (a.take 5).length = 5 := by rw [List.length_take]; omega
  have hhalf : Nat.pow 2 (8 * (a.take 5).length - 1) = 0x8000000000 := by rw [hlen]
  have hne : a.take 5 ≠ [] := List.ne_nil_of_length_pos (by omega)
  have hadd := flipped_add hne (by rw [hhalf]; exact h.highest)
  have hlt := bigEndian_lt (a.take 5)
  rw [hhalf] at hadd
  rw [hlen, show Nat.pow 256 5 = 0x10000000000 from rfl] at hlt
  have hmod : flipped (a.take 5) / 0x400000 % 0x20000 = flipped (a.take 5) / 0x400000 :=
    Nat.mod_eq_of_lt (by omega)
  unfold dateTime?
  simp only [if_pos hsize, hmod, List.append_assoc, List.cons_append]

/-- **Stored dates and times are in the order of their texts.** -/
theorem IsDateTime.compare_decode (ha : IsDateTime digits a) (hb : IsDateTime digits b) :
    (Value.ofText .str a (dateTime? digits a)).compare
      (Value.ofText .str b (dateTime? digits b)) = compare a b := by
  have hsize := ha.size
  have hsize' := hb.size
  have hla : (a.take 5).length = 5 := by rw [List.length_take]; omega
  have hlb : (b.take 5).length = 5 := by rw [List.length_take]; omega
  have hhalf : Nat.pow 2 (8 * (a.take 5).length - 1) = 0x8000000000 := by rw [hla]
  have hne : a.take 5 ≠ [] := List.ne_nil_of_length_pos (by omega)
  have hbytes := compare_flipped (hla.trans hlb.symm) hne (by rw [hhalf]; exact ha.highest)
    (by rw [hhalf]; exact hb.highest)
  have hpart := compare_octets_fraction (a := a.drop 5) (b := b.drop 5)
    (by rw [List.length_drop]; omega) (by rw [List.length_drop]; omega) ha.part hb.part
  have hy := ha.year
  have hy' := hb.year
  rw [ha.dateTime?_eq, hb.dateTime?_eq, Value.ofText, Value.ofText, Value.compare_str,
    compare_octets_renderDate (by omega) (by omega) (by omega), compare_octets_cons,
    compare_octets_renderClock (by omega) (by omega) (by omega), hpart]
  rw [compare_take_drop hla hlb, ← hbytes, compare_dateTime (flipped (a.take 5))]
  simp only [Ordering.then_assoc]

/-! ### Timestamps -/

/-- Seconds are in the order of their days, and then of their places in these. -/
theorem compare_days (x y : Int) :
    compare x y = (compare (x / 86400) (y / 86400)).then
      (compare (x % 86400).toNat (y % 86400).toNat) := by
  rcases lt_trichotomy (x / 86400) (y / 86400) with h | h | h
  · rw [compare_lt_iff_lt.mpr h, compare_lt_iff_lt.mpr (by omega)]
    rfl
  · rw [compare_eq_iff_eq.mpr h]
    exact compare_congr (by omega) (by omega) (by omega)
  · rw [compare_gt_iff_gt.mpr h, compare_gt_iff_gt.mpr (by omega)]
    rfl

theorem compare_ofDay (m n : Nat) :
    compare m n = (compare (m / 3600) (n / 3600)).then
      ((compare (m % 3600 / 60) (n % 3600 / 60)).then (compare (m % 60) (n % 60))) := by
  rw [compare_div_mod (show 0 < 3600 by omega) m n,
    compare_div_mod (show 0 < 60 by omega) (m % 3600) (n % 3600),
    Nat.mod_mod_of_dvd m (by decide), Nat.mod_mod_of_dvd n (by decide)]

/-- A second whose year has four digits and is not zero. -/
def IsShown (second : Int) : Prop := -51840000000 ≤ second ∧ second ≤ 250560000000

/-- The date of a second that is shown, its year as a natural number. -/
theorem IsShown.year {x : Int} (h : IsShown x) :
    ∃ y : Nat, (Date.ofDays (x / 86400)).year = y ∧ 0 < y ∧ y < 10000 := by
  obtain ⟨hlow, hhigh⟩ := h
  obtain ⟨hpos, hle⟩ := Date.year_of_days (show -600000 ≤ x / 86400 by omega) (by omega)
  exact ⟨(Date.ofDays (x / 86400)).year.toNat, by omega⟩

/-- **Texts that begin with seconds** are in the order of these, and then in that of what
follows. -/
theorem compare_octets_renderSecond {x y : Int} (hx : IsShown x) (hy : IsShown y)
    (cs ds : List Char) :
    compare (octets (renderSecond x ++ cs)) (octets (renderSecond y ++ ds)) =
      (compare x y).then (compare (octets cs) (octets ds)) := by
  obtain ⟨m, hm, -, hm'⟩ := hx.year
  obtain ⟨n, hn, -, hn'⟩ := hy.year
  obtain ⟨hmonth, hday, -, -⟩ := Date.ofDays_spec (x / 86400)
  obtain ⟨hmonth', hday', -, -⟩ := Date.ofDays_spec (y / 86400)
  have hyear : compare (m : Int) n = compare m n :=
    compare_congr (by omega) (by omega) (by omega)
  unfold renderSecond
  simp only [hm, hn, List.append_assoc, List.cons_append]
  rw [compare_octets_renderDate (by omega) (by omega) (by omega), compare_octets_cons,
    compare_octets_renderClock (by omega) (by omega) (by omega), compare_days x y,
    Date.compare_ofDays, hm, hn, hyear, compare_ofDay (x % 86400).toNat]
  simp only [Ordering.then_assoc]

/-- The timestamp zero comes before all others. -/
theorem compare_octets_zeroTimestamp {x : Int} (hx : IsShown x) (cs : List Char) :
    compare (octets zeroTimestamp) (octets (renderSecond x ++ cs)) = .lt := by
  obtain ⟨m, hm, hpos, hm'⟩ := hx.year
  obtain ⟨hmonth, hday, -, -⟩ := Date.ofDays_spec (x / 86400)
  have hzero : zeroTimestamp = renderDate (0 : Nat) 0 0 ++ ' ' :: renderClock 0 0 0 := by
    decide +kernel
  unfold renderSecond
  simp only [hm, List.append_assoc, List.cons_append]
  rw [hzero, compare_octets_renderDate (by omega) (by omega) (by omega),
    compare_lt_iff_lt.mpr hpos]
  rfl

/-- **Stored timestamps are in the order of their texts**, whatever the offset. -/
theorem IsTimestamp.compare_decode {offset : Int} (ho : -2 ^ 31 ≤ offset ∧ offset < 2 ^ 31)
    (ha : IsTimestamp digits a) (hb : IsTimestamp digits b) :
    (Value.ofText .str a (timestamp? digits offset a)).compare
      (Value.ofText .str b (timestamp? digits offset b)) = compare a b := by
  have hsize := ha.size
  have hsize' := hb.size
  have hla : (a.take 4).length = 4 := by rw [List.length_take]; omega
  have hlb : (b.take 4).length = 4 := by rw [List.length_take]; omega
  have hsplit : compare a b = (compare (bigEndian (a.take 4)) (bigEndian (b.take 4))).then
      (compare (a.drop 4) (b.drop 4)) := by
    rw [← compare_bigEndian (hla.trans hlb.symm), ← compare_take_drop hla hlb]
  have hshown : ∀ {c : List UInt8}, c.length = 4 → IsShown (bigEndian c + offset) := by
    intro c hc
    have hlt := bigEndian_lt c
    rw [hc, show Nat.pow 256 4 = 2 ^ 32 from rfl] at hlt
    unfold IsShown
    omega
  rw [hsplit]
  unfold timestamp?
  simp only [if_pos hsize, if_pos hsize']
  by_cases hza : bigEndian (a.take 4) = 0
  · by_cases hzb : bigEndian (b.take 4) = 0
    · -- without fractions the bytes are the same
      have hdrop : compare (a.drop 4) (b.drop 4) = .eq := by
        rw [compare_bigEndian (by rw [List.length_drop, List.length_drop]; omega), ha.zero hza,
          hb.zero hzb]
        rfl
      rw [if_pos hza, if_pos hzb, hza, hzb, hdrop, Value.ofText, Value.ofText, Value.compare_str]
      decide +kernel
    · have hlt : compare 0 (bigEndian (b.take 4)) = .lt := compare_lt_iff_lt.mpr (by omega)
      rw [if_pos hza, if_neg hzb, hza, hlt, Value.ofText, Value.ofText, Value.compare_str,
        compare_octets_zeroTimestamp (hshown hlb)]
      rfl
  · by_cases hzb : bigEndian (b.take 4) = 0
    · have hgt : compare (bigEndian (a.take 4)) 0 = .gt := compare_gt_iff_gt.mpr (by omega)
      rw [if_neg hza, if_pos hzb, hzb, hgt, Value.ofText, Value.ofText, Value.compare_str,
        Std.OrientedCmp.gt_iff_lt.mpr (compare_octets_zeroTimestamp (hshown hla) _)]
      rfl
    · have hpart := compare_octets_fraction (a := a.drop 4) (b := b.drop 4)
        (by rw [List.length_drop]; omega) (by rw [List.length_drop]; omega) ha.part hb.part
      have hsecond : compare ((bigEndian (a.take 4) : Int) + offset)
          (bigEndian (b.take 4) + offset) = compare (bigEndian (a.take 4)) (bigEndian (b.take 4)) :=
        compare_congr (by omega) (by omega) (by omega)
      rw [if_neg hza, if_neg hzb, Value.ofText, Value.ofText, Value.compare_str,
        compare_octets_renderSecond (hshown hla) (hshown hlb), hpart, hsecond]

end Temporal
end Tablespace
