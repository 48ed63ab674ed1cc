import Tablespace.Binary.Format
import Tablespace.Text.Numeral

/-! # Shortest decimals

The decimal written for a finite number has the fewest digits that read back as the number, and of
those decimals it is the nearest, a tie going to the even last digit.

A number lies on a grid of `n` digits, between two neighbours. If a point of the grid reads back,
one of the two neighbours does, so they are the only candidates.

* `Shortest.digits`: the digits of a positive finite magnitude, and the power of ten of the first.
* `Layout`: where a decimal is written positionally. `Layout.write`: its text. -/

namespace Tablespace.Shortest

/-- The numbers that read back as `m` lie between `low` and `high`, both included if `closed`.
They and the number itself, `mid`, are given in quarters of a unit. -/
structure Span where
  low : Nat
  mid : Nat
  high : Nat
  closed : Bool

/-- The span of a positive finite magnitude. Below the first number of a binade the gap is half
as wide as above it. -/
def Span.of (f : Format) (m : Nat) : Span :=
  let u := f.gap m
  let below := if m % f.fractions = 0 ∧ 1 < f.exponent m then u else 2 * u
  { low := 4 * f.scaled m - below
    mid := 4 * f.scaled m
    high := 4 * f.scaled m + 2 * u
    closed := m % 2 = 0 }

/-- Whether `num / den` lies in the span. -/
def Span.contains (s : Span) (num den : Nat) : Bool :=
  if s.closed then s.low * den ≤ num && num ≤ s.high * den
  else s.low * den < num && num < s.high * den

/-- The power of ten of the first digit of `num / den`. -/
def leading (num den : Nat) : Int :=
  let e : Int := (Numeral.digits num).length - (Numeral.digits den).length
  if den * Nat.pow 10 e.toNat ≤ num * Nat.pow 10 (-e).toNat then e else e - 1

/-- The decimal of the grid of step `10 ^ k` that is nearest to the middle of the span, if one of
the two neighbours of the middle reads back. `unit` is one in quarters of a unit. -/
def onGrid (s : Span) (unit : Nat) (k : Int) : Option Nat :=
  let up := Nat.pow 10 (-k).toNat
  let step := unit * Nat.pow 10 k.toNat
  let d := s.mid * up / step
  let reads (d : Nat) : Bool := s.contains (d * step) up
  match reads d, reads (d + 1) with
  | true, true => some (Format.roundHalfEven (s.mid * up) step)
  | true, false => some d
  | false, true => some (d + 1)
  | false, false => none

/-- The first of the grids of `n`, `n + 1`, … digits on which a decimal reads back, and it. -/
def search (s : Span) (unit : Nat) (lead : Int) : Nat → Nat → Nat × Int
  | 0, _ => (0, 0)
  | tries + 1, n =>
    match onGrid s unit (lead + 1 - n) with
    | some d => (d, lead + 1 - n)
    | none => search s unit lead tries (n + 1)

/-- The digits of a decimal without the zeros at its end. -/
def stripZeros (cs : List Char) : List Char := (cs.reverse.dropWhile (· = '0')).reverse

/-- **The shortest digits** of a positive finite magnitude, none of them a zero at the end, and
the power of ten of the first. Seventeen digits tell any two doubles apart. -/
def digits (f : Format) (m : Nat) : List Char × Int :=
  let s := Span.of f m
  let unit := 4 * Nat.pow 2 f.unitBits
  let (d, k) := search s unit (leading s.mid unit) 17 1
  let ds := Numeral.digits d
  (stripZeros ds, k + ds.length - 1)

/-- **How decimals are written**: positionally if the power of ten of the first digit lies between
`low` and `high`, else with an exponent. -/
structure Layout where
  low : Int
  high : Int

/-- Digits and the power of ten of the first as text. A positional decimal has a digit on either
side of its point; an exponent is signed and a single digit before it has no point. -/
def Layout.write (l : Layout) (ds : List Char) (e : Int) : List Char :=
  if l.low ≤ e ∧ e ≤ l.high then
    if e < 0 then '0' :: '.' :: List.replicate ((-e).toNat - 1) '0' ++ ds
    else
      let n := e.toNat + 1
      let fraction := ds.drop n
      (ds.take n).rightpad n '0' ++ '.' :: (if fraction.isEmpty then ['0'] else fraction)
  else
    let fraction := ds.drop 1
    ds.take 1 ++ (if fraction.isEmpty then [] else '.' :: fraction) ++
      'e' :: (if e < 0 then '-' else '+') :: Numeral.digits e.natAbs

/-- The layout of singles. -/
def Layout.single : Layout := ⟨-6, 12⟩

/-- The layout of doubles. -/
def Layout.double : Layout := ⟨-5, 15⟩

/-- The text of a number of either format, absent for infinities and NaNs. -/
def text? (f : Format) (l : Layout) (word : Nat) : Option String :=
  let m := word % f.signBit
  if m < f.infinity then
    let (ds, e) := if m = 0 then (['0'], 0) else digits f m
    let body := l.write ds e
    some (String.ofList (if f.signBit ≤ word then '-' :: body else body))
  else none

/-- The text of a single. -/
def single? (w : UInt32) : Option String := text? .single .single w.toNat

/-- The text of a double. -/
def double? (w : UInt64) : Option String := text? .double .double w.toNat

end Tablespace.Shortest
