import Tablespace.Proofs.TemporalOrder

/-! # Times in order

A time is stored as a number that counts up from that of time zero, or down from it where the time
is negative. It is read as its hours, minutes and seconds and the microseconds of its fraction. So
stored times are in the order of their lengths.

* `Temporal.Time`: times that can be stored. `Temporal.Time.bytes`: their stored form.
* `Temporal.Time.packed_bytes`: stored times are read as their fields.
* `Temporal.Time.compare_decode`: they are in the order of the times that they are read as. -/

namespace Tablespace

/-- **A clock writes its seconds.** -/
theorem Duration.clock_renderClock {h m s : Nat} (hh : h < 2 ^ 63) (hs : m ≤ 59 ∧ s ≤ 59) :
    Clock (renderClock h m s) (h * 3600 + m * 60 + s) := by
  have hclock := Clock.mk ⟨digits_padded 2 h, digits_padded 2 m, digits_padded 2 s⟩
    ⟨padded_ne_nil 2 h, padded_ne_nil 2 m, padded_ne_nil 2 s⟩ (by rwa [value_padded])
    (by rwa [value_padded, value_padded])
  rw [value_padded, value_padded, value_padded] at hclock
  simpa [renderClock] using hclock

namespace Temporal

open Numeral (value padded)

/-- **A time** with a sign and a fraction of a second that so many digits show. -/
structure Time (digits : Nat) where
  negative : Bool
  hour : Nat
  minute : Nat
  second : Nat
  part : Nat
  hours : hour ≤ 838
  sexagesimal : minute ≤ 59 ∧ second ≤ 59
  fraction : IsFraction digits part

namespace Time
variable {digits : Nat} (t u : Time digits)

/-- The bit fields of hours, minutes and seconds. -/
def clock : Nat := (t.hour * 64 + t.minute) * 64 + t.second

/-- The hours, minutes and seconds as seconds. -/
def seconds : Nat := (t.hour * 60 + t.minute) * 60 + t.second

/-- The microseconds of the fraction. -/
def micros : Nat := t.part * fractionUnit (fractionBytes digits)

/-- The bit fields with the fraction below them. -/
def fields : Nat := t.clock * Nat.pow 256 (fractionBytes digits) + t.part

/-- The number that is stored for a time. -/
def word : Int :=
  0x800000 * Nat.pow 256 (fractionBytes digits) + signed t.negative t.fields

/-- **The stored form of a time.** -/
def bytes : List UInt8 := bytesOf (3 + fractionBytes digits) t.word.toNat

/-- The microseconds of a time. -/
def length : Int := signed t.negative (t.seconds * 1000000 + t.micros)

/-! ### The stored form -/

theorem clock_lt : t.clock < 0x800000 := by
  have hh := t.hours
  have hs := t.sexagesimal
  unfold clock
  omega

theorem micros_lt : t.micros < 1000000 := t.fraction.below

/-- The microseconds of a time fit 64 bits. -/
theorem natAbs_length_lt : t.length.natAbs < 0x8000000000000000 := by
  have hh := t.hours
  have hs := t.sexagesimal
  have hm := t.micros_lt
  unfold length seconds signed
  cases t.negative <;> simp only [Bool.false_eq_true, if_true, if_false] <;> omega

theorem fields_lt : t.fields < 0x800000 * Nat.pow 256 (fractionBytes digits) := by
  have hpart := t.fraction.stored
  have hle : (t.clock + 1) * Nat.pow 256 (fractionBytes digits) ≤
      0x800000 * Nat.pow 256 (fractionBytes digits) := Nat.mul_le_mul_right _ t.clock_lt
  rw [Nat.add_mul] at hle
  unfold fields
  omega

theorem word_bounds :
    0 ≤ t.word ∧ t.word < 0x1000000 * Nat.pow 256 (fractionBytes digits) := by
  have hlt := t.fields_lt
  unfold word signed
  cases t.negative <;> simp only [Bool.false_eq_true, if_true, if_false] <;> omega

theorem length_bytes : t.bytes.length = 3 + fractionBytes digits := length_bytesOf ..

theorem bigEndian_bytes : (bigEndian t.bytes : Int) = t.word := by
  obtain ⟨hlow, hhigh⟩ := t.word_bounds
  have hpow : Nat.pow 256 (3 + fractionBytes digits) =
      0x1000000 * Nat.pow 256 (fractionBytes digits) := Nat.pow_add 256 3 _
  have hlt : t.word.toNat < Nat.pow 256 (3 + fractionBytes digits) := by
    rw [hpow]
    omega
  rw [bytes, bigEndian_bytesOf hlt, Int.toNat_of_nonneg hlow]

/-! ### Reading -/

/-- A number is made up of two fields in one way. -/
theorem eq_of_fields {n x y r s : Int} (hr : 0 ≤ r ∧ r < n) (hs : 0 ≤ s ∧ s < n)
    (h : x * n + r = y * n + s) : x = y ∧ r = s := by
  have hpos : 0 < n := by omega
  have hle : ∀ {x y : Int}, x < y → x * n + n ≤ y * n := by
    intro x y hxy
    have hmul := Int.mul_le_mul_of_nonneg_right (show x + 1 ≤ y from hxy) hpos.le
    rwa [Int.add_mul, Int.one_mul] at hmul
  rcases lt_trichotomy x y with hxy | hxy | hxy
  · have hgap := hle hxy
    omega
  · subst hxy
    exact ⟨rfl, by omega⟩
  · have hgap := hle hxy
    omega

/-- What the seconds of a negative time borrow from its fraction is given back. -/
theorem unborrow {n first rest clock part : Nat} (hrest : rest < n) (hpart : part < n)
    {negative : Bool}
    (h : (first * n + rest : Int) = 0x800000 * n + signed negative (clock * n + part)) :
    (if (first : Int) - 0x800000 < 0 ∧ (rest : Int) ≠ 0 then
        ((first : Int) - 0x800000 + 1, (rest : Int) - n)
      else ((first : Int) - 0x800000, (rest : Int))) =
      (signed negative clock, signed negative part) := by
  have hfirst : ((first : Int) - 0x800000) * n + rest = signed negative (clock * n + part) := by
    rw [Int.sub_mul]
    omega
  unfold signed at hfirst ⊢
  cases negative with
  | false =>
    have hcount : ((first : Int) - 0x800000) * n + rest = (clock : Int) * n + part := by
      simpa using hfirst
    obtain ⟨hc, hp⟩ := eq_of_fields (by omega) (by omega) hcount
    rw [if_neg (by omega), hc, hp]
    rfl
  | true =>
    simp only [if_true] at hfirst ⊢
    push_cast at hfirst
    by_cases hzero : part = 0
    · have hcount : ((first : Int) - 0x800000) * n + rest = -(clock : Int) * n + 0 := by
        rw [hfirst, hzero, Int.neg_mul]
        omega
      obtain ⟨hc, hp⟩ := eq_of_fields (by omega) (by omega) hcount
      rw [if_neg (by omega), hc, hp, hzero]
      rfl
    · -- the seconds are one lower, and the fraction is what is missing to a second
      have hcount : ((first : Int) - 0x800000) * n + rest =
          (-(clock : Int) - 1) * n + (n - part) := by
        rw [hfirst, Int.sub_mul, Int.neg_mul]
        omega
      obtain ⟨hc, hp⟩ := eq_of_fields (by omega) (by omega) hcount
      rw [if_pos (by omega), hc, hp]
      exact Prod.ext (by omega) (by omega)

theorem signed_fields (negative : Bool) (m n k l : Nat) :
    signed negative m * k + signed negative n * l = signed negative (m * k + n * l) := by
  unfold signed
  cases negative with
  | false => simp
  | true =>
    simp only [if_true]
    push_cast
    ring

/-- **Stored times are read as their fields**, those of a negative time with what they borrow. -/
theorem packed_bytes :
    packed t.bytes = signed t.negative (t.clock * packedSecond + t.micros) := by
  have hword := t.bigEndian_bytes
  have hlen := t.length_bytes
  have hpart := t.fraction.stored
  rw [word, fields] at hword
  unfold packed micros
  rw [show t.bytes.length - 3 = fractionBytes digits by omega]
  by_cases h3 : fractionBytes digits = 3
  · have hone : fractionUnit 3 = 1 := rfl
    have hsecond : Nat.pow 256 3 = packedSecond := rfl
    simp only [h3, if_true, hone, hsecond, Nat.mul_one] at hword ⊢
    rw [hword]
    unfold packedSecond
    omega
  · have hdrop : (t.bytes.drop 3).length = fractionBytes digits := by rw [List.length_drop]; omega
    have hlt := bigEndian_lt (t.bytes.drop 3)
    have hsplit := bigEndian_append (t.bytes.take 3) (t.bytes.drop 3)
    rw [List.take_append_drop, hdrop] at hsplit
    rw [hdrop] at hlt
    rw [hsplit] at hword
    push_cast at hword
    simp only [if_neg h3]
    rw [unborrow hlt hpart hword, signed_fields]

/-! ### Texts -/

/-- The text of a time without its sign. -/
def magnitudeText : List Char :=
  renderClock t.hour t.minute t.second ++ renderFraction digits t.micros

theorem natAbs_packed : (packed t.bytes).natAbs = t.clock * packedSecond + t.micros := by
  rw [packed_bytes]
  unfold signed
  split
  · rw [Int.natAbs_neg, Int.natAbs_natCast]
  · rw [Int.natAbs_natCast]

theorem natAbs_packed_div : (packed t.bytes).natAbs / packedSecond = t.clock := by
  have hm := t.micros_lt
  rw [natAbs_packed, show packedSecond = 0x1000000 from rfl]
  omega

theorem natAbs_packed_mod : (packed t.bytes).natAbs % packedSecond = t.micros := by
  have hm := t.micros_lt
  rw [natAbs_packed, show packedSecond = 0x1000000 from rfl]
  omega

theorem renderPacked_packed : renderPacked digits (packed t.bytes) =
    (if packed t.bytes < 0 then ['-'] else []) ++ t.magnitudeText := by
  have hh := t.hours
  have hs := t.sexagesimal
  have hhour : t.clock / 0x1000 % 0x400 = t.hour := by unfold clock; omega
  have hminute : t.clock / 64 % 64 = t.minute := by unfold clock; omega
  have hseconds : t.clock % 64 = t.second := by unfold clock; omega
  unfold renderPacked
  simp only [natAbs_packed_div, natAbs_packed_mod, hhour, hminute, hseconds, magnitudeText,
    List.append_assoc]

theorem clock_renderClock :
    Duration.Clock (renderClock t.hour t.minute t.second) t.seconds := by
  have hh := t.hours
  have h := Duration.clock_renderClock (h := t.hour) (by omega) t.sexagesimal
  have hsum : t.hour * 3600 + t.minute * 60 + t.second = t.seconds := by unfold seconds; omega
  rwa [hsum] at h

/-- **The text of a time writes its microseconds.** -/
theorem unsigned_magnitudeText :
    Duration.Unsigned t.magnitudeText (t.seconds * 1000000 + t.micros) := by
  have hshown := value_shown t.micros_lt t.fraction.shown
  unfold magnitudeText renderFraction
  by_cases h0 : digits = 0
  · subst h0
    have hzero : t.micros = 0 := Nat.eq_zero_of_dvd_of_lt t.fraction.shown t.micros_lt
    rw [if_pos rfl, List.append_nil, hzero, Nat.add_zero]
    exact Duration.Unsigned.whole t.clock_renderClock
  · have hlen : (shown digits t.micros).length = min digits 6 := length_shown t.micros_lt
    have h := Duration.Unsigned.point t.clock_renderClock (digits_shown digits t.micros) (by omega)
    rw [Duration.microsOf_eq, hlen, hshown] at h
    rw [if_neg h0]
    exact h

/-- A time without length has no fields. -/
theorem length_zero_iff : t.seconds * 1000000 + t.micros = 0 ↔ t.fields = 0 := by
  have hunit := fractionUnit_pos (fractionBytes digits)
  have hpow : 0 < Nat.pow 256 (fractionBytes digits) := Nat.pow_pos (by omega)
  have hmicros : t.micros = 0 ↔ t.part = 0 := by
    unfold micros
    rw [Nat.mul_eq_zero]
    omega
  have hclock : t.clock * Nat.pow 256 (fractionBytes digits) = 0 ↔ t.seconds = 0 := by
    rw [Nat.mul_eq_zero]
    unfold clock seconds
    omega
  unfold fields
  omega

theorem writes_renderPacked :
    Duration.Writes (renderPacked digits (packed t.bytes)) t.length := by
  have hu := t.unsigned_magnitudeText
  have hsecond : packedSecond = 0x1000000 := rfl
  rw [renderPacked_packed, packed_bytes]
  unfold length signed
  cases t.negative with
  | false =>
    simp only [Bool.false_eq_true, if_false]
    rw [if_neg (by omega), List.nil_append]
    exact Duration.Writes.unsigned hu
  | true =>
    simp only [if_true]
    by_cases hzero : t.clock * packedSecond + t.micros = 0
    · have hlength : t.seconds * 1000000 + t.micros = 0 := by
        have hclock : t.clock = 0 := by
          rw [hsecond] at hzero
          omega
        unfold clock at hclock
        unfold seconds
        omega
      rw [hlength] at hu ⊢
      rw [hzero, if_neg (by omega), List.nil_append]
      exact Duration.Writes.unsigned hu
    · rw [if_pos (by omega)]
      exact Duration.Writes.minus hu

/-! ### Order -/

theorem compare_fields : compare t.fields u.fields =
    compare (t.seconds * 1000000 + t.micros) (u.seconds * 1000000 + u.micros) := by
  have ht := t.sexagesimal
  have hu := u.sexagesimal
  have hclock : compare t.clock u.clock = compare t.seconds u.seconds := by
    unfold clock seconds
    rw [compare_mul_add (by omega) (by omega), compare_mul_add (by omega) (by omega),
      compare_mul_add (by omega) (by omega), compare_mul_add (by omega) (by omega)]
  have hmicros : compare t.micros u.micros = compare t.part u.part :=
    compare_mul_right (fractionUnit_pos _) ..
  unfold fields
  rw [compare_mul_add t.fraction.stored u.fraction.stored, compare_mul_add t.micros_lt u.micros_lt,
    hclock, hmicros]

theorem compare_bytes : compare t.bytes u.bytes = compare t.length u.length := by
  have hsigned := compare_signed t.negative u.negative (compare_fields t u) u.length_zero_iff.symm
  have hword : compare t.word u.word =
      compare (signed t.negative t.fields) (signed u.negative u.fields) := by
    unfold word
    exact compare_congr (by omega) (by omega) (by omega)
  rw [compare_bigEndian (t.length_bytes.trans u.length_bytes.symm), length, length, ← hsigned,
    ← hword, ← t.bigEndian_bytes, ← u.bigEndian_bytes]
  exact compare_congr (by omega) (by omega) (by omega)

/-- **Stored times are in the order of the times that they are read as.** -/
theorem compare_decode :
    (Value.ofText .time t.bytes (time? digits t.bytes)).compare
      (Value.ofText .time u.bytes (time? digits u.bytes)) = compare t.bytes u.bytes := by
  have hdenotes : ∀ t : Time digits, Value.Denotes
      (.time (String.ofList (renderPacked digits (packed t.bytes)))) (.time t.length) := by
    intro t
    refine Value.Denotes.time ?_ t.natAbs_length_lt
    rw [String.toList_ofList]
    exact t.writes_renderPacked
  unfold time?
  rw [if_pos t.length_bytes, if_pos u.length_bytes, Value.ofText, Value.ofText,
    Value.compare_times (hdenotes t) (hdenotes u), compare_bytes]

end Time
end Temporal
end Tablespace
