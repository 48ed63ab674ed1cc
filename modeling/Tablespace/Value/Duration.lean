import Tablespace.Text.Numeral

/-! # Durations

A time is written as hours, minutes and seconds with colons between them, signed if it is negative
and with up to six digits of a fraction. Its microseconds are counted in 64 bits, and wrap around
where the hours are too many for them.

* `Duration.total?`: the microseconds that a time writes.
* `Duration.micros?`: the microseconds of a time as they are counted. -/

namespace Tablespace.Duration

/-- The number of a field, which fits 63 bits. -/
def field? (cs : List Char) : Option Nat := do
  let n ← Numeral.nat? cs
  if n < 0x8000000000000000 then some n else none

/-- The microseconds of the digits after the point; none at all are zero. -/
def fraction? (cs : List Char) : Option Nat :=
  if cs = [] then some 0
  else if cs.length ≤ 6 then (field? cs).map (· * Nat.pow 10 (6 - cs.length))
  else none

/-- The microseconds of a time without its sign. Minutes and seconds stop at 59. -/
def magnitude? (cs : List Char) : Option Nat := do
  let micros ← fraction? ((cs.dropWhile (· ≠ '.')).drop 1)
  match (cs.takeWhile (· ≠ '.')).splitOn ':' with
  | [h, m, s] =>
    let h ← field? h
    let m ← field? m
    let s ← field? s
    if m ≤ 59 ∧ s ≤ 59 then some ((h * 3600 + m * 60 + s) * 1000000 + micros) else none
  | _ => none

/-- The microseconds that a time writes. -/
def total? (cs : List Char) : Option Int :=
  match cs with
  | '-' :: rest => (magnitude? rest).map fun n => -(n : Int)
  | _ => (magnitude? cs).map fun n => (n : Int)

/-- The integer of 64 bits that an integer wraps around to. -/
def wrap (z : Int) : Int := Int.bmod z 0x10000000000000000

/-- **The microseconds of a time**, counted in 64 bits. -/
def micros? (cs : List Char) : Option Int := (total? cs).map wrap

end Tablespace.Duration
