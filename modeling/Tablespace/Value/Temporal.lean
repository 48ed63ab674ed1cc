import Tablespace.Bytes.Buffer
import Tablespace.Column.Kind
import Tablespace.Value.Calendar

/-! # Dates and times

A date or time is a bit field, its highest bit set so that bytes sort in time. A fraction of a
second follows in up to three bytes, which count hundredths, ten-thousandths or millionths.

* `Temporal.date?`, `Temporal.dateTime?`, `Temporal.timestamp?`, `Temporal.time?`: the text of the
  bytes of a field, absent where their number is wrong.
* `Temporal.Packed.ofBytes`: the seconds and microseconds of a time. -/

namespace Tablespace.Temporal

/-- The microseconds that the unit of a fraction of so many bytes stands for. -/
def fractionUnit : Nat → Nat
  | 1 => 10000
  | 2 => 100
  | _ => 1

/-- The digits of a fraction that stands in some bytes. -/
def fraction (digits : Nat) (bytes : List UInt8) : List Char :=
  if bytes = [] then []
  else renderFraction digits (bigEndian bytes * fractionUnit bytes.length)

/-- The number in bytes whose highest bit is flipped. -/
def flipped (bytes : List UInt8) : Nat :=
  let half := Nat.pow 2 (8 * bytes.length - 1)
  (bigEndian bytes + half) % (2 * half)

/-- **The text of a date**: year, four bits of the month and five of the day. -/
def date? (bytes : List UInt8) : Option (List Char) :=
  if bytes.length = 3 then
    let v := flipped bytes
    some (renderDate (v / 512 : Nat) (v / 32 % 16) (v % 32))
  else none

/-- **The text of a date and time**: 13 times the year plus the month, then day, hour, minute and
second. -/
def dateTime? (digits : Nat) (bytes : List UInt8) : Option (List Char) :=
  if bytes.length = 5 + fractionBytes digits then
    let v := flipped (bytes.take 5)
    let yearMonth := v / 0x400000 % 0x20000
    some (renderDate (yearMonth / 13 : Nat) (yearMonth % 13) (v / 0x20000 % 32) ++
      ' ' :: renderClock (v / 0x1000 % 32) (v / 64 % 64) (v % 64) ++
      fraction digits (bytes.drop 5))
  else none

/-- The text of a second, counted from the start of 1970. -/
def renderSecond (second : Int) : List Char :=
  let date := Date.ofDays (second / 86400)
  let ofDay := (second % 86400).toNat
  renderDate date.year date.month date.day ++
    ' ' :: renderClock (ofDay / 3600) (ofDay % 3600 / 60) (ofDay % 60)

/-- The text of the timestamp zero, whatever its fraction. -/
def zeroTimestamp : List Char := "0000-00-00 00:00:00".toList

/-- **The text of a timestamp**, which counts seconds and is shown with an offset. -/
def timestamp? (digits : Nat) (offset : Int) (bytes : List UInt8) : Option (List Char) :=
  if bytes.length = 4 + fractionBytes digits then
    let second := bigEndian (bytes.take 4)
    if second = 0 then some zeroTimestamp
    else some (renderSecond (second + offset) ++ fraction digits (bytes.drop 4))
  else none

/-- The weight of a second in a packed time. -/
def packedSecond : Nat := 0x1000000

/-- **The packed form of a time**: bit fields of hours, minutes and seconds, and below them 24 bits
of microseconds, all counted down from zero where the time is negative. Bytes of a negative time
with one or two bytes of fraction hold the floor of the seconds, and the rest is made up by the
fraction. -/
def packed (bytes : List UInt8) : Int :=
  let n := bytes.length - 3
  if n = 3 then (bigEndian bytes : Int) - 0x800000000000
  else
    let second : Int := (bigEndian (bytes.take 3) : Int) - 0x800000
    let part : Int := bigEndian (bytes.drop 3)
    let (second, part) :=
      if second < 0 ∧ part ≠ 0 then (second + 1, part - Nat.pow 256 n) else (second, part)
    second * packedSecond + part * fractionUnit n

/-- The text of a packed time. -/
def renderPacked (digits : Nat) (p : Int) : List Char :=
  let clock := p.natAbs / packedSecond
  (if p < 0 then ['-'] else []) ++
    renderClock (clock / 0x1000 % 0x400) (clock / 64 % 64) (clock % 64) ++
    renderFraction digits (p.natAbs % packedSecond)

/-- **The text of a time.** -/
def time? (digits : Nat) (bytes : List UInt8) : Option (List Char) :=
  if bytes.length = 3 + fractionBytes digits then some (renderPacked digits (packed bytes))
  else none

end Tablespace.Temporal
