import Tablespace.Binary.Format
import Tablespace.Text.Numeral

/-! # Numerals of floating-point numbers

A numeral is an optional sign and either digits with an optional point and an optional exponent, or
one of the words `inf`, `infinity` and `nan` in any case. It is read as the nearest number.

* `Decimal.ofText?`: digits, point and exponent of a numeral without its sign.
* `Format.ofText?`: the word of the number nearest to a numeral. -/

namespace Tablespace.Decimal

/-- A decimal: the number `mantissa * 10 ^ exponent`. -/
structure Scientific where
  mantissa : Nat
  exponent : Int
  deriving DecidableEq, Repr

/-- The exponent that `e` and what follows it writes; nothing at all writes zero. -/
def exponent? : List Char → Option Int
  | [] => some 0
  | c :: cs =>
    if c = 'e' ∨ c = 'E' then
      match cs with
      | '-' :: ds => (Numeral.nat? ds).map fun n => -(n : Int)
      | '+' :: ds => (Numeral.nat? ds).map fun n => (n : Int)
      | ds => (Numeral.nat? ds).map fun n => (n : Int)
    else none

/-- **The decimal that digits write**, with or without a point and an exponent. One digit at least
stands before or after the point. -/
def ofText? (cs : List Char) : Option Scientific := do
  let whole := cs.takeWhile Char.isDigit
  let rest := cs.dropWhile Char.isDigit
  let (fraction, rest) := match rest with
    | '.' :: r => (r.takeWhile Char.isDigit, r.dropWhile Char.isDigit)
    | _ => ([], rest)
  let mantissa ← Numeral.nat? (whole ++ fraction)
  let e ← exponent? rest
  return ⟨mantissa, e - fraction.length⟩

end Tablespace.Decimal

namespace Tablespace.Format

/-- The magnitude nearest to a decimal. A decimal with a power of ten beyond 400 is out of the
range of either format, and need not be written out to be rounded. -/
def ofDecimal (f : Format) (d : Decimal.Scientific) : Nat :=
  let size : Int := (Numeral.digits d.mantissa).length + d.exponent
  if d.mantissa = 0 ∨ size < -400 then 0
  else if 400 < size then f.infinity
  else f.round (d.mantissa * Nat.pow 10 d.exponent.toNat * Nat.pow 2 f.unitBits)
    (Nat.pow 10 (-d.exponent).toNat)

/-- The magnitude of a quiet NaN. -/
def nan (f : Format) : Nat := f.infinity + f.fractions / 2

/-- The magnitude that a numeral without its sign writes. -/
def magnitude? (f : Format) (cs : List Char) : Option Nat :=
  let word := String.ofList (cs.map Char.toLower)
  if word = "inf" ∨ word = "infinity" then some f.infinity
  else if word = "nan" then some f.nan
  else (Decimal.ofText? cs).map f.ofDecimal

/-- **The word of the number nearest to a numeral.** -/
def ofText? (f : Format) (cs : List Char) : Option Nat :=
  match cs with
  | '-' :: r => (f.magnitude? r).map (f.signed true)
  | '+' :: r => f.magnitude? r
  | _ => f.magnitude? cs

end Tablespace.Format

namespace Tablespace

/-- The single nearest to a numeral. -/
def Single.ofText? (cs : List Char) : Option UInt32 :=
  (Format.single.ofText? cs).map UInt32.ofNat

/-- The double nearest to a numeral. -/
def Double.ofText? (cs : List Char) : Option UInt64 :=
  (Format.double.ofText? cs).map UInt64.ofNat

end Tablespace
