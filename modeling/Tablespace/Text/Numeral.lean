/-! # Decimal numerals

* `padded`: the digits of a number, led by zeros up to a width.
* `nat?`, `unsigned?`, `signed?`: the number that a numeral writes, with a sign where one may
  stand, absent for any other text and for a number out of range. -/

namespace Tablespace.Numeral

/-- The largest number of 32 bits. -/
def maxWord : Nat := 0xFFFFFFFF

/-- The largest number of 64 bits. -/
def maxLong : Nat := 0xFFFFFFFFFFFFFFFF

/-- The decimal digits of `n`. -/
def digits (n : Nat) : List Char := Nat.toDigits 10 n

/-- The decimal digits of `n`, led by zeros up to `width` characters. -/
def padded (width n : Nat) : List Char := (digits n).leftpad width '0'

/-- The decimal digits of an integer with its sign, zeros between sign and digits up to `width`
characters in all. -/
def paddedInt (width : Nat) (z : Int) : List Char :=
  if z < 0 then '-' :: padded (width - 1) z.natAbs else padded width z.natAbs

/-- The `width` lowest hexadecimal digits of `n`, or more where `n` has more. -/
def hexPadded (width n : Nat) : List Char := (Nat.toDigits 16 n).leftpad width '0'

/-- The number that one or more decimal digits write. -/
def nat? (cs : List Char) : Option Nat :=
  if cs ≠ [] ∧ cs.all Char.isDigit then some (Nat.ofDigitChars 10 cs 0) else none

/-- The number up to `limit` that a numeral writes, with or without `+`. -/
def unsigned? (limit : Nat) (cs : List Char) : Option Nat := do
  let n ← nat? (match cs with | '+' :: ds => ds | _ => cs)
  if n ≤ limit then some n else none

/-- The integer of `bits` bits that a numeral writes, with or without a sign. -/
def signed? (bits : Nat) (cs : List Char) : Option Int :=
  match cs with
  | '-' :: ds => do
    let n ← nat? ds
    if n ≤ Nat.pow 2 (bits - 1) then some (-(n : Int)) else none
  | _ => do
    let n ← unsigned? (Nat.pow 2 (bits - 1) - 1) cs
    return (n : Int)

theorem isDigit_of_mem_digits {n : Nat} {c : Char} (h : c ∈ digits n) : c.isDigit = true :=
  Nat.isDigit_of_mem_toDigits (by decide) (by decide) h

theorem digits_ne_nil (n : Nat) : digits n ≠ [] := by
  unfold digits
  exact List.ne_nil_of_length_pos Nat.length_toDigits_pos

/-- **Reading undoes writing.** -/
theorem nat?_digits (n : Nat) : nat? (digits n) = some n := by
  unfold nat?
  rw [if_pos ⟨digits_ne_nil n, List.all_eq_true.2 fun c hc => isDigit_of_mem_digits hc⟩]
  exact congrArg some (Nat.ofDigitChars_toDigits (by decide) (by decide))

/-- Digits begin with no sign. -/
theorem digits_ne_cons {c : Char} (hc : c.isDigit = false) (n : Nat) (cs : List Char) :
    digits n ≠ c :: cs := by
  intro h
  have hd := isDigit_of_mem_digits (n := n) (c := c) (by rw [h]; exact List.mem_cons_self)
  rw [hc] at hd
  cases hd

theorem unsigned?_digits {limit n : Nat} (h : n ≤ limit) : unsigned? limit (digits n) = some n := by
  unfold unsigned?
  split
  · next ds hds => exact absurd hds (digits_ne_cons rfl n ds)
  · rw [nat?_digits]
    exact if_pos h

theorem paddedInt_zero (z : Int) :
    paddedInt 0 z = if z < 0 then '-' :: digits z.natAbs else digits z.natAbs := by
  have hpad : ∀ n, padded 0 n = digits n := by
    intro n
    simp [padded, List.leftpad]
  unfold paddedInt
  rw [hpad]

/-- **Reading undoes writing**, with a sign. -/
theorem signed?_paddedInt {bits : Nat} {z : Int}
    (h : -(Nat.pow 2 (bits - 1) : Int) ≤ z ∧ z < (Nat.pow 2 (bits - 1) : Int)) :
    signed? bits (paddedInt 0 z) = some z := by
  rw [paddedInt_zero]
  unfold signed?
  by_cases hz : z < 0
  · rw [if_pos hz]
    simp only [nat?_digits]
    show (if z.natAbs ≤ Nat.pow 2 (bits - 1) then some (-(z.natAbs : Int)) else none) = some z
    rw [if_pos (by omega)]
    congr 1
    omega
  · rw [if_neg hz]
    split
    · next ds hds => exact absurd hds (digits_ne_cons rfl _ ds)
    · rw [unsigned?_digits (by omega)]
      show some (z.natAbs : Int) = some z
      congr 1
      omega

end Tablespace.Numeral
