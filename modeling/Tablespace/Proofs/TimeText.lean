import Mathlib.Tactic.IntervalCases
import Tablespace.Proofs.TimeOrder
import Tablespace.Value.Decode

/-! # The texts of times

A time is stored as a number of bit fields, with a fraction of a second below them, that counts up
or down from the middle of its bytes. Whatever its sign and its digits, it is shown as its hours,
minutes and seconds and the first digits of its microseconds, and that text is read as its length.

* `Temporal.Reading`: a time by its hours, minutes, seconds and microseconds.
* `Temporal.Reading.word`, `Temporal.Reading.text`: the number that is stored for it, and its text.
* `Column.decode_reading`: a stored time is shown as its text, which is read as its length. -/

namespace Tablespace

open Numeral (padded)

namespace Temporal

/-- **A time by its parts**, with microseconds that so many digits show. There is no negative time
zero. -/
structure Reading (digits : Nat) where
  negative : Bool
  hour : Nat
  minute : Nat
  second : Nat
  micros : Nat
  few : digits ≤ 6
  hours : hour ≤ 838
  sexagesimal : minute ≤ 59 ∧ second ≤ 59
  below : micros < 1000000
  shown : 10 ^ (6 - digits) ∣ micros
  sign : negative → 0 < hour + minute + second + micros

namespace Reading
variable {digits : Nat} (r : Reading digits)

/-- **The number that is stored for a time** whose fraction takes `k` bytes: bit fields of hours,
minutes and seconds and the units of the fraction below them, counted from the middle. -/
def word (k : Nat) : Int :=
  0x800000 * 256 ^ k + signed r.negative
    ((r.hour <<< 12 ||| r.minute <<< 6 ||| r.second) * 256 ^ k + r.micros / 10 ^ (6 - 2 * k))

/-- **The text of a time**: hours of two digits or more, minutes and seconds of two, and the first
of the six digits of its microseconds. -/
def text : List Char :=
  (if r.negative then ['-'] else []) ++ padded 2 r.hour ++ ':' :: padded 2 r.minute ++
    ':' :: padded 2 r.second ++ if digits = 0 then [] else '.' :: (padded 6 r.micros).take digits

/-- The microseconds of a time, all in all. -/
def length : Int :=
  signed r.negative (((r.hour * 60 + r.minute) * 60 + r.second) * 1000000 + r.micros)

/-! ### The stored time -/

/-- A fraction of a second is stored in half as many bytes as it has digits. -/
theorem fractionBytes_eq {digits : Nat} (h : digits ≤ 6) :
    fractionBytes digits = (digits + 1) / 2 := by
  have hdigits : ∀ n : Fin 7, fractionBytes n = (n.val + 1) / 2 := by decide
  exact hdigits ⟨digits, by omega⟩

/-- Microseconds that so many digits show are a number of units of their fraction. -/
theorem div_mul_fractionUnit : r.micros / 10 ^ (6 - 2 * fractionBytes digits) *
    fractionUnit (fractionBytes digits) = r.micros := by
  have hfew := r.few
  have hbelow := r.below
  have hshown := r.shown
  rw [fractionBytes_eq hfew]
  generalize r.micros = u at hbelow hshown ⊢
  interval_cases digits <;> simp [fractionUnit] at hshown ⊢ <;> omega

/-- The units of a fraction fit into its bytes. -/
theorem div_lt_pow : r.micros / 10 ^ (6 - 2 * fractionBytes digits) <
    Nat.pow 256 (fractionBytes digits) := by
  have hfew := r.few
  have hbelow := r.below
  rw [fractionBytes_eq hfew]
  generalize r.micros = u at hbelow ⊢
  interval_cases digits <;> simp <;> omega

/-- The time that is stored. -/
def toTime : Time digits where
  negative := r.negative
  hour := r.hour
  minute := r.minute
  second := r.second
  part := r.micros / 10 ^ (6 - 2 * fractionBytes digits)
  hours := r.hours
  sexagesimal := r.sexagesimal
  fraction :=
    { stored := r.div_lt_pow
      below := by
        rw [r.div_mul_fractionUnit]
        exact r.below
      shown := by
        rw [r.div_mul_fractionUnit]
        exact r.shown }

theorem micros_toTime : r.toTime.micros = r.micros := r.div_mul_fractionUnit

/-- The bit fields of a time do not overlap. -/
theorem clock_toTime : r.toTime.clock = r.hour <<< 12 ||| r.minute <<< 6 ||| r.second := by
  obtain ⟨hm, hs⟩ := r.sexagesimal
  have hminute : r.minute <<< 6 < 2 ^ 12 := by
    rw [Nat.shiftLeft_eq]
    omega
  have hsecond : r.second < 2 ^ 6 := by omega
  have hshift : r.hour <<< 12 + r.minute <<< 6 = (r.hour * 64 + r.minute) <<< 6 := by
    simp only [Nat.shiftLeft_eq]
    omega
  rw [← Nat.shiftLeft_add_eq_or_of_lt hminute, hshift, ← Nat.shiftLeft_add_eq_or_of_lt hsecond,
    Nat.shiftLeft_eq]
  rfl

theorem word_toTime : r.toTime.word = r.word (fractionBytes digits) := by
  rw [Time.word, Time.fields, clock_toTime]
  rfl

theorem length_toTime : r.toTime.length = r.length := by
  rw [Time.length, micros_toTime]
  rfl

/-- **A stored time is shown as its text.** The sign of its number is that of the time, which is not
zero if it is negative. -/
theorem renderPacked_toTime : renderPacked digits (packed r.toTime.bytes) = r.text := by
  have hfew := r.few
  have hsign : packed r.toTime.bytes < 0 ↔ r.negative = true := by
    have hunit : packedSecond = 0x1000000 := rfl
    have hpos := r.sign
    have hclock : r.toTime.clock = (r.hour * 64 + r.minute) * 64 + r.second := rfl
    have hneg : r.toTime.negative = r.negative := rfl
    rw [Time.packed_bytes, micros_toTime, hclock, hneg, hunit]
    unfold signed
    by_cases h : r.negative = true
    · have hnonzero := hpos h
      rw [if_pos h]
      exact ⟨fun _ => h, fun _ => by omega⟩
    · rw [if_neg h]
      exact ⟨fun hlt => absurd hlt (by omega), fun hn => absurd hn h⟩
  have hfraction : renderFraction digits r.micros =
      if digits = 0 then [] else '.' :: (padded 6 r.micros).take digits := by
    rw [renderFraction, show min digits 6 = digits by omega]
  have hclock : renderClock r.toTime.hour r.toTime.minute r.toTime.second =
      padded 2 r.hour ++ ':' :: padded 2 r.minute ++ ':' :: padded 2 r.second := rfl
  rw [Time.renderPacked_packed, Time.magnitudeText, micros_toTime, hclock, hfraction]
  simp only [hsign, text, List.append_assoc]

end Reading
end Temporal

namespace Column

open Temporal (Reading)

/-- **A stored time is shown as its text, and that is read as its length.** The number of any time
fits into three bytes and half as many as there are digits after the point. A column of times with
these digits shows them as the text of the time, whose microseconds are those of the time. -/
theorem decode_reading (c : Column) (offset : Int) {digits : Nat} (hc : c.type = .time digits)
    (r : Reading digits) {k : Nat} (hk : k = (digits + 1) / 2) :
    (bigEndian (bytesOf (3 + k) (r.word k).toNat) : Int) = r.word k ∧
      c.decode offset (bytesOf (3 + k) (r.word k).toNat) = .time (String.ofList r.text) ∧
      Duration.micros? r.text = some r.length := by
  have hbytes : k = fractionBytes digits := by rw [hk, Reading.fractionBytes_eq r.few]
  have hword := r.word_toTime
  have hstored : bytesOf (3 + k) (r.word k).toNat = r.toTime.bytes := by
    rw [Temporal.Time.bytes, hword, hbytes]
  have htext := r.renderPacked_toTime
  have hmicros := Duration.micros?_of_writes r.toTime.writes_renderPacked r.toTime.natAbs_length_lt
  rw [htext, r.length_toTime] at hmicros
  rw [hstored]
  refine ⟨?_, ?_, hmicros⟩
  · rw [r.toTime.bigEndian_bytes, hword, hbytes]
  · unfold decode Temporal.time?
    rw [hc]
    simp only [r.toTime.length_bytes, if_true, htext, Value.ofText]

end Column

namespace Temporal

/-- Half a second before time zero. -/
def halfBefore : Reading 1 where
  negative := true
  hour := 0
  minute := 0
  second := 0
  micros := 500000
  few := by decide
  hours := by decide
  sexagesimal := by decide
  below := by decide
  shown := by decide
  sign := by decide

end Temporal

namespace Column

open Temporal (halfBefore)

/-- Half a second before time zero borrows a whole second from its fraction. -/
theorem decode_reading_halfBefore :
    (ofType "lead" (.time 1)).type = .time 1 ∧ 1 = (1 + 1) / 2 ∧
      bigEndian [0x7F, 0xFF, 0xFF, 0xCE] = halfBefore.word 1 ∧
      (ofType "lead" (.time 1)).decode 0 [0x7F, 0xFF, 0xFF, 0xCE] = .time "-00:00:00.5" ∧
      Duration.micros? "-00:00:00.5".toList = some (-500000) := by
  have hbytes : bytesOf (3 + 1) (halfBefore.word 1).toNat = [0x7F, 0xFF, 0xFF, 0xCE] := by decide
  have htext : halfBefore.text = "-00:00:00.5".toList := by decide +kernel
  have hlength : halfBefore.length = -500000 := by decide
  have h := decode_reading (ofType "lead" (.time 1)) 0 rfl halfBefore (k := 1) rfl
  rw [hbytes, htext, hlength, String.ofList_toList] at h
  exact ⟨rfl, rfl, h⟩

end Column
end Tablespace
