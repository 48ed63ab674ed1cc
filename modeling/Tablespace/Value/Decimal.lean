import Tablespace.Column.Kind
import Tablespace.Value.Basic

/-! # Packed decimals

The digits of a decimal are cut into groups of nine, from the point outwards, and each group is
stored as a big-endian number. The highest bit is set, and the bytes of a negative decimal are
complemented, so that bytes sort as numbers do.

* `Packed.readGroups?`: the numbers of groups that fill a run of bytes.
* `Packed.decode?`: the text of a packed decimal. -/

namespace Tablespace.Packed

/-- **The numbers of groups** that fill the bytes, absent where the bytes are too few or too
many. -/
def readGroups? : List Nat → List UInt8 → Option (List Nat)
  | [], [] => some []
  | [], _ :: _ => none
  | g :: gs, bytes =>
    let n := groupBytes g
    if n ≤ bytes.length then
      (readGroups? gs (bytes.drop n)).map (bigEndian (bytes.take n) :: ·)
    else none

/-- The digits of numbers, each led by zeros up to the size of its group. -/
def groupDigits (groups values : List Nat) : List Char :=
  (List.zipWith Numeral.padded groups values).flatten

/-- Digits without the zeros that lead them, but at least one. -/
def stripLeading (ds : List Char) : List Char :=
  match ds.dropWhile (· = '0') with
  | [] => ['0']
  | ds => ds

/-- The text of sign, digits before the point and digits after it. -/
def render (negative : Bool) (whole fraction : List Char) : List Char :=
  (if negative then ['-'] else []) ++ stripLeading whole ++
    (if fraction = [] then [] else '.' :: fraction)

/-- The bytes without their sign, and whether it was negative. -/
def unsign : List UInt8 → Bool × List UInt8
  | [] => (false, [])
  | b :: bs =>
    if b < 0x80 then (true, (b ^^^ 0x7F) :: bs.map fun c => c ^^^ 0xFF)
    else (false, (b ^^^ 0x80) :: bs)

/-- **The text of a packed decimal**, absent where the bytes do not fit its groups. -/
def decode? (precision scale : Nat) (bytes : List UInt8) : Option (List Char) :=
  let whole := wholeGroups (precision - scale)
  let fraction := fractionGroups scale
  let (negative, bytes) := unsign bytes
  if whole ++ fraction = [] then none
  else (readGroups? (whole ++ fraction) bytes).map fun values =>
    render negative (groupDigits whole (values.take whole.length))
      (groupDigits fraction (values.drop whole.length))

end Tablespace.Packed
