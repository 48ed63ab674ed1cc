import Mathlib.Tactic.Linarith
import Tablespace.Proofs.ByteOrder

/-! # The order of decimals

Decimals are compared by their digits: by how many stand before the point, and then as texts. No
zero leads the digits before the point, so that more of them write a larger number, and as many of
them are in the order of a dictionary. The digits after the point are in that order whatever their
number, since no zero ends them. So decimals are in the order of the rational numbers that they are.

* `Exact.compare_before`, `Exact.compareTexts_after`: the digits on the two sides of a point.
* `Exact.compareMagnitude_eq`: decimals without their signs.
* `Exact.compare_eq`: decimals are compared as rational numbers. -/

namespace Tablespace

open Numeral (Digits value fraction value_cons value_lt)

/-! ### Digits -/

namespace Numeral

/-- A digit other than zero counts. -/
theorem digit_pos {c : Char} (hc : c.isDigit) (hne : c ≠ '0') : 0 < c.toNat - '0'.toNat := by
  obtain ⟨hlow, -⟩ := Text.toNat_of_isDigit hc
  have hzero : '0'.toNat = 48 := rfl
  have hne' : c.toNat ≠ '0'.toNat := fun h => hne (Char.toNat_inj.mp h)
  omega

theorem fraction_nonneg (ds : List Char) : 0 ≤ fraction ds := by
  rw [fraction_eq]
  positivity

theorem fraction_lt_one {ds : List Char} (h : Digits ds) : fraction ds < 1 := by
  rw [fraction_eq, div_lt_one (by positivity)]
  exact_mod_cast value_lt h

/-- Digits after a point are more than nothing if no zero ends them. -/
theorem fraction_pos {ds : List Char} (h : Digits ds) (hne : ds ≠ [])
    (hlast : ds.getLast? ≠ some '0') : 0 < fraction ds := by
  induction ds with
  | nil => exact absurd rfl hne
  | cons c ds ih =>
    rw [fraction]
    by_cases hnil : ds = []
    · subst hnil
      have hc : c ≠ '0' := fun hc => hlast (by rw [hc]; rfl)
      have hpos := digit_pos (h c List.mem_cons_self) hc
      have hq : (0 : ℚ) < (c.toNat - '0'.toNat : Nat) := by exact_mod_cast hpos
      have hrest := fraction_nonneg []
      positivity
    · have hrest := ih h.tail hnil (by rwa [List.getLast?_cons_of_ne_nil hnil] at hlast)
      positivity

end Numeral

namespace Exact
variable {ds es : List Char}

theorem compareTexts_eq (ds es : List Char) :
    compareTexts ds es = Ord.compare (octets ds) (octets es) := by
  unfold compareTexts
  rw [encode_ofList, encode_ofList]
  rfl

/-! ### Before the point -/

/-- More digits that no zero leads write a larger number. -/
theorem value_lt_of_length_lt (hd : Digits ds) (he : Digits es) (hhead : es.head? ≠ some '0')
    (hlt : ds.length < es.length) : value ds < value es := by
  cases es with
  | nil => cases hlt
  | cons e es =>
    have hpos := Numeral.digit_pos (he e List.mem_cons_self) fun h => hhead (by rw [h]; rfl)
    have hle : ds.length ≤ es.length := Nat.le_of_lt_succ hlt
    calc value ds < 10 ^ ds.length := value_lt hd
      _ ≤ 10 ^ es.length := Nat.pow_le_pow_right (by decide) hle
      _ ≤ (e.toNat - '0'.toNat) * 10 ^ es.length := Nat.le_mul_of_pos_left _ hpos
      _ ≤ value (e :: es) := by rw [value_cons]; exact Nat.le_add_right _ _

/-- **Digits before a point** are in the order of their numbers if no zero leads them: first by how
many they are, and then as texts. -/
theorem compare_before (hd : Digits ds) (he : Digits es) (hdhead : ds.head? ≠ some '0')
    (hehead : es.head? ≠ some '0') :
    (Ord.compare ds.length es.length).then (compareTexts ds es) =
      Ord.compare (value ds) (value es) := by
  rcases Nat.lt_trichotomy ds.length es.length with hlt | heq | hgt
  · have hvalue := value_lt_of_length_lt hd he hehead hlt
    rw [compare_lt_iff_lt.mpr hlt, compare_lt_iff_lt.mpr hvalue]
    rfl
  · have htexts := compare_octets_digits hd he heq [] []
    rw [List.append_nil, List.append_nil, compare_octets_nil, Ordering.then_eq] at htexts
    rw [compare_eq_iff_eq.mpr heq, compareTexts_eq, htexts]
    rfl
  · have hvalue := value_lt_of_length_lt he hd hdhead hgt
    rw [compare_gt_iff_gt.mpr hgt, compare_gt_iff_gt.mpr hvalue]
    rfl

/-! ### After the point -/

/-- **Whole numbers and parts of one** are in the order of the first that differ. -/
theorem compare_add {m n : Nat} {p q : ℚ} (hp : 0 ≤ p ∧ p < 1) (hq : 0 ≤ q ∧ q < 1) :
    (Ord.compare m n).then (Ord.compare p q) = Ord.compare (m + p : ℚ) (n + q) := by
  rcases Nat.lt_trichotomy m n with hlt | rfl | hgt
  · have hle : (m + 1 : ℚ) ≤ n := by exact_mod_cast hlt
    have hsum : (m + p : ℚ) < n + q := by linarith
    rw [compare_lt_iff_lt.mpr hlt, compare_lt_iff_lt.mpr hsum]
    rfl
  · rw [compare_eq_iff_eq.mpr (rfl : m = m)]
    exact compare_congr (fun h => by linarith) (fun h => by rw [h]) fun h => by linarith
  · have hle : (n + 1 : ℚ) ≤ m := by exact_mod_cast hgt
    have hsum : (n + q : ℚ) < m + p := by linarith
    rw [compare_gt_iff_gt.mpr hgt, compare_gt_iff_gt.mpr hsum]
    rfl

theorem compareTexts_cons {c e : Char} (hc : c.isDigit) (he : e.isDigit) :
    compareTexts (c :: ds) (e :: es) =
      (Ord.compare (c.toNat - '0'.toNat) (e.toNat - '0'.toNat)).then (compareTexts ds es) := by
  have hone : ∀ c : Char, value [c] = c.toNat - '0'.toNat := fun c => by
    rw [value_cons]
    simp [value]
  have hdigits {c : Char} (hc : c.isDigit) : Digits [c] := by simpa [Digits] using hc
  rw [compareTexts_eq, compareTexts_eq, ← hone, ← hone]
  exact compare_octets_digits (hdigits hc) (hdigits he) rfl ds es

/-- **Digits after a point** are in the order of their numbers as texts if no zero ends them. -/
theorem compareTexts_after (hd : Digits ds) (he : Digits es) (hdlast : ds.getLast? ≠ some '0')
    (helast : es.getLast? ≠ some '0') :
    compareTexts ds es = Ord.compare (fraction ds) (fraction es) := by
  induction ds generalizing es with
  | nil =>
    cases es with
    | nil => exact (compare_eq_iff_eq.mpr rfl).symm
    | cons e es =>
      -- a beginning stands before what goes on, which is more than nothing
      obtain ⟨hbyte, -⟩ := encode_digit (he e List.mem_cons_self)
      have hpos := Numeral.fraction_pos he (List.cons_ne_nil _ _) helast
      rw [compareTexts_eq, octets_cons, hbyte, fraction, compare_lt_iff_lt.mpr hpos]
      exact List.compare_nil_cons
  | cons c ds ih =>
    cases es with
    | nil =>
      obtain ⟨hbyte, -⟩ := encode_digit (hd c List.mem_cons_self)
      have hpos := Numeral.fraction_pos hd (List.cons_ne_nil _ _) hdlast
      rw [compareTexts_eq, octets_cons, hbyte, fraction.eq_1, compare_gt_iff_gt.mpr hpos]
      exact List.compare_cons_nil
    | cons e es =>
      have last {c : Char} {ds : List Char} (h : (c :: ds).getLast? ≠ some '0') :
          ds.getLast? ≠ some '0' := by
        cases ds with
        | nil => decide
        | cons d ds => rwa [List.getLast?_cons_cons] at h
      have hrest := ih hd.tail he.tail (last hdlast) (last helast)
      rw [compareTexts_cons (hd c List.mem_cons_self) (he e List.mem_cons_self), hrest,
        compare_add ⟨Numeral.fraction_nonneg ds, Numeral.fraction_lt_one hd.tail⟩
          ⟨Numeral.fraction_nonneg es, Numeral.fraction_lt_one he.tail⟩, fraction, fraction]
      exact compare_congr (fun h => by linarith) (fun h => by rw [h]) fun h => by linarith

/-! ### Decimals -/

variable {a b : Exact}

theorem digits_before (a : Exact) : Digits a.before := (all_isDigit.mp a.digits).left

theorem digits_after (a : Exact) : Digits a.after := (all_isDigit.mp a.digits).right

theorem magnitude_nonneg (a : Exact) : 0 ≤ a.magnitude :=
  add_nonneg (Nat.cast_nonneg _) (Numeral.fraction_nonneg _)

/-- A negative decimal is not zero. -/
theorem magnitude_pos (h : a.negative) : 0 < a.magnitude := by
  have hbefore : (0 : ℚ) ≤ value a.before := Nat.cast_nonneg _
  by_cases hafter : a.after = []
  · -- the digits are all before the point
    have hne : a.before ≠ [] := fun hnil => a.sign h (by rw [hnil, hafter]; rfl)
    have hpos : value [] < value a.before :=
      value_lt_of_length_lt nofun a.digits_before a.head (List.length_pos_iff.mpr hne)
    have hq : (0 : ℚ) < value a.before := by exact_mod_cast hpos
    exact add_pos_of_pos_of_nonneg hq (Numeral.fraction_nonneg _)
  · exact add_pos_of_nonneg_of_pos hbefore (Numeral.fraction_pos a.digits_after hafter a.last)

/-- **Decimals without their signs** are compared as the numbers that they are. -/
theorem compareMagnitude_eq (a b : Exact) :
    a.compareMagnitude b = Ord.compare a.magnitude b.magnitude := by
  unfold compareMagnitude magnitude
  rw [← Ordering.then_assoc, compare_before a.digits_before b.digits_before a.head b.head,
    compareTexts_after a.digits_after b.digits_after a.last b.last]
  exact compare_add ⟨Numeral.fraction_nonneg _, Numeral.fraction_lt_one a.digits_after⟩
    ⟨Numeral.fraction_nonneg _, Numeral.fraction_lt_one b.digits_after⟩

/-- **Decimals are compared as rational numbers.** -/
theorem compare_eq (a b : Exact) : a.compare b = Ord.compare a.toRat b.toRat := by
  have ha := magnitude_nonneg a
  have hb := magnitude_nonneg b
  unfold compare toRat withSign
  cases hna : a.negative <;> cases hnb : b.negative
  case false.false => exact compareMagnitude_eq a b
  case false.true =>
    have hpos := magnitude_pos hnb
    have hlt : -b.magnitude < a.magnitude := by linarith
    exact (compare_gt_iff_gt.mpr hlt).symm
  case true.false =>
    have hpos := magnitude_pos hna
    have hlt : -a.magnitude < b.magnitude := by linarith
    exact (compare_lt_iff_lt.mpr hlt).symm
  case true.true =>
    show b.compareMagnitude a = Ord.compare (-a.magnitude) (-b.magnitude)
    rw [compareMagnitude_eq]
    exact compare_congr (fun h => by linarith) (fun h => by rw [h]) fun h => by linarith

end Exact
end Tablespace
