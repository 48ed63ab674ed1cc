/-! # Binary floating-point numbers

A floating-point number is a sign and a magnitude, the magnitude a word of exponent and fraction
bits. Magnitudes are ordered as their words are. A finite one stands for `scaled` units, a unit
being the least positive number of the format, so that rounding is arithmetic of naturals.

* `Format.scaled`: the units of a finite magnitude.
* `Format.round`: the magnitude nearest a quotient of units, ties to the even word.
* `widen`: a single as a double. `Double.ofInt`, `Double.ratio`: nearest doubles.
* `Double.order`: the integer whose order is the total order of doubles. -/

namespace Tablespace

/-- **A format**: how many bits a significand has, its leading bit included, and how many an
exponent. -/
structure Format where
  precision : Nat
  exponentBits : Nat

namespace Format

/-- The format of singles. -/
def single : Format := ⟨24, 8⟩

/-- The format of doubles. -/
def double : Format := ⟨53, 11⟩

/-- One past the fractions of a binade. -/
def fractions (f : Format) : Nat := Nat.pow 2 (f.precision - 1)

/-- The magnitude of infinity; above it are those of NaNs. -/
def infinity (f : Format) : Nat := (Nat.pow 2 f.exponentBits - 1) * f.fractions

/-- The weight of the sign bit. -/
def signBit (f : Format) : Nat := Nat.pow 2 f.exponentBits * f.fractions

/-- The logarithm of the number of units in one. -/
def unitBits (f : Format) : Nat := Nat.pow 2 (f.exponentBits - 1) + f.precision - 3

/-- The exponent field of a magnitude. -/
def exponent (f : Format) (m : Nat) : Nat := m / f.fractions

/-- The units between a finite magnitude and the next. -/
def gap (f : Format) (m : Nat) : Nat := Nat.pow 2 (f.exponent m - 1)

/-- **The units that a finite magnitude stands for.** -/
def scaled (f : Format) (m : Nat) : Nat :=
  if f.exponent m = 0 then m else (m % f.fractions + f.fractions) * f.gap m

/-- A quotient rounded to the nearest natural, a tie to the even one. -/
def roundHalfEven (num den : Nat) : Nat :=
  let q := num / den
  let r := num % den
  if 2 * r < den then q
  else if den < 2 * r then q + 1
  else q + q % 2

/-- **The magnitude nearest to `num / den` units**, a tie to the even word, infinity beyond the
largest finite one. -/
def round (f : Format) (num den : Nat) : Nat :=
  let q := num / den
  let shift := Nat.log2 q + 1 - f.precision
  min (roundHalfEven num (den * Nat.pow 2 shift) + shift * f.fractions) f.infinity

/-- The word of a sign and a magnitude. -/
def signed (f : Format) (negative : Bool) (m : Nat) : Nat :=
  if negative then f.signBit + m else m

end Format

/-- The number of a word of a single, as a double. A NaN keeps sign and fraction and becomes
quiet. -/
def widen (w : UInt32) : UInt64 :=
  let s := Format.single
  let d := Format.double
  let m := w.toNat % s.signBit
  let negative := decide (s.signBit ≤ w.toNat)
  let wide :=
    if m < s.infinity then d.round (s.scaled m * Nat.pow 2 (d.unitBits - s.unitBits)) 1
    else if m = s.infinity then d.infinity
    else
      let fraction := (m - s.infinity) * (d.fractions / s.fractions)
      let quiet := d.fractions / 2
      d.infinity + (if fraction < quiet then fraction + quiet else fraction)
  UInt64.ofNat (d.signed negative wide)

namespace Double

/-- The magnitude of a double. -/
def magnitude (w : UInt64) : Nat := w.toNat % Format.double.signBit

/-- Whether the sign bit is set. -/
def isNegative (w : UInt64) : Bool := Format.double.signBit ≤ w.toNat

/-- The nearest double to an integer. -/
def ofInt (z : Int) : UInt64 :=
  let d := Format.double
  UInt64.ofNat (d.signed (decide (z < 0)) (d.round (z.natAbs * Nat.pow 2 d.unitBits) 1))

/-- The double nearest to the quotient of two doubles that are nearest to naturals. -/
def ratio (a b : Nat) : UInt64 :=
  let d := Format.double
  UInt64.ofNat (d.round (d.scaled (magnitude (ofInt a)) * Nat.pow 2 d.unitBits)
    (d.scaled (magnitude (ofInt b))))

/-- **The total order of doubles**: negative words come first and descend, so `-0` lies just below
`+0`, and NaNs lie outside the infinities. -/
def order (w : UInt64) : Int :=
  if isNegative w then -(magnitude w : Int) - 1 else magnitude w

end Double

end Tablespace
