import Mathlib.Order.Basic
import Tablespace.Proofs.Encoding
import Tablespace.Proofs.Written

/-! # The order of bytes

Bytes are in the order of a dictionary. Of as many bytes, that is the order of the big-endian
numbers that they write, and of as many digits, that of the numbers that the digits write. So a text
of fields of fixed width is in the order of its fields, the first of them that differs deciding, as
are bytes cut into fields and numbers made up of them.

* `compare_mul_add`: numbers made up of two fields.
* `compare_append`, `compare_bigEndian`, `compare_complement`: bytes.
* `octets`: the bytes of a text. `compare_octets_digits`: texts that begin with as many digits.
* `compare_octets_latin1`: texts of Latin-1 are in the order of their bytes in that charset. -/

namespace Tablespace

/-! ### Orders -/

section Order
variable {α β : Type} [LinearOrder α] [LinearOrder β]

/-- Two pairs that are related alike compare alike. -/
theorem compare_congr {x y : α} {u v : β} (hlt : x < y → u < v) (heq : x = y → u = v)
    (hgt : y < x → v < u) : compare x y = compare u v := by
  rcases lt_trichotomy x y with h | h | h
  · rw [compare_lt_iff_lt.mpr h, compare_lt_iff_lt.mpr (hlt h)]
  · rw [compare_eq_iff_eq.mpr h, compare_eq_iff_eq.mpr (heq h)]
  · rw [compare_gt_iff_gt.mpr h, compare_gt_iff_gt.mpr (hgt h)]

end Order

/-- **Numbers made up of two fields** are in the order of the first that differs. -/
theorem compare_mul_add {B x y u v : Nat} (hu : u < B) (hv : v < B) :
    compare (x * B + u) (y * B + v) = (compare x y).then (compare u v) := by
  rcases lt_trichotomy x y with h | h | h
  · have hle : (x + 1) * B ≤ y * B := Nat.mul_le_mul_right _ h
    rw [Nat.add_mul] at hle
    rw [compare_lt_iff_lt.mpr h, compare_lt_iff_lt.mpr (by omega)]
    rfl
  · subst h
    rw [compare_eq_iff_eq.mpr (rfl : x = x)]
    exact compare_congr (by omega) (by omega) (by omega)
  · have hle : (y + 1) * B ≤ x * B := Nat.mul_le_mul_right _ h
    rw [Nat.add_mul] at hle
    rw [compare_gt_iff_gt.mpr h, compare_gt_iff_gt.mpr (by omega)]
    rfl

theorem compare_div_mod {k : Nat} (hk : 0 < k) (m n : Nat) :
    compare m n = (compare (m / k) (n / k)).then (compare (m % k) (n % k)) := by
  have h := compare_mul_add (x := m / k) (y := n / k) (Nat.mod_lt m hk) (Nat.mod_lt n hk)
  rwa [Nat.div_add_mod', Nat.div_add_mod'] at h

theorem compare_mul_right {k : Nat} (hk : 0 < k) (m n : Nat) :
    compare (m * k) (n * k) = compare m n := by
  have h := compare_mul_add (x := m) (y := n) hk hk
  have hself : compare 0 0 = .eq := compare_eq_iff_eq.mpr (rfl : (0 : Nat) = 0)
  rw [Nat.add_zero, Nat.add_zero, hself, Ordering.then_eq] at h
  exact h

/-- A number with a sign. -/
def signed (negative : Bool) (n : Nat) : Int := if negative then -n else n

/-- Numbers with signs are in the same order if those without are, and the same are zero. -/
theorem compare_signed {m n u v : Nat} (k l : Bool) (h : compare m n = compare u v)
    (hn : n = 0 ↔ v = 0) :
    compare (signed k m) (signed l n) = compare (signed k u) (signed l v) := by
  have hlt : m < n ↔ u < v := by rw [← compare_lt_iff_lt, h, compare_lt_iff_lt]
  have hgt : n < m ↔ v < u := by rw [← compare_gt_iff_gt, h, compare_gt_iff_gt]
  unfold signed
  cases k <;> cases l <;> simp only [Bool.false_eq_true, if_true, if_false] <;>
    exact compare_congr (by omega) (by omega) (by omega)

/-! ### Bytes -/

theorem compare_append [Ord α] {a b : List α} (c d : List α) (h : a.length = b.length) :
    compare (a ++ c) (b ++ d) = (compare a b).then (compare c d) := by
  induction a generalizing b with
  | nil =>
    rw [List.eq_nil_of_length_eq_zero h.symm, List.compare_nil_nil]
    rfl
  | cons x a ih =>
    cases b with
    | nil => cases h
    | cons y b =>
      have hl : a.length = b.length := by simpa using h
      rw [List.cons_append, List.cons_append, List.compare_cons_cons, ih hl,
        List.compare_cons_cons, Ordering.then_assoc]

/-- Bytes cut in two are in the order of their beginnings, and then in that of the rest. -/
theorem compare_take_drop {a b : List UInt8} {n : Nat} (ha : (a.take n).length = n)
    (hb : (b.take n).length = n) :
    compare a b = (compare (a.take n) (b.take n)).then (compare (a.drop n) (b.drop n)) := by
  rw [← compare_append _ _ (ha.trans hb.symm), List.take_append_drop, List.take_append_drop]

theorem compare_append_left (a : List UInt8) (c d : List UInt8) :
    compare (a ++ c) (a ++ d) = compare c d := by
  have hself : compare a a = .eq := Std.LawfulEqOrd.compare_eq_iff_eq.mpr rfl
  rw [compare_append c d rfl, hself]
  rfl

theorem bigEndian_append (a b : List UInt8) :
    bigEndian (a ++ b) = bigEndian a * Nat.pow 256 b.length + bigEndian b := by
  rw [← bigEndian_foldl, bigEndian, List.foldl_append]
  rfl

/-- **As many bytes** are in the order of the numbers that they write. -/
theorem compare_bigEndian {a b : List UInt8} (h : a.length = b.length) :
    compare a b = compare (bigEndian a) (bigEndian b) := by
  induction a generalizing b with
  | nil =>
    rw [List.eq_nil_of_length_eq_zero h.symm, List.compare_nil_nil]
    exact (compare_eq_iff_eq.mpr rfl).symm
  | cons x a ih =>
    cases b with
    | nil => cases h
    | cons y b =>
      have hl : a.length = b.length := by simpa using h
      rw [List.compare_cons_cons, ih hl, bigEndian_cons, bigEndian_cons, ← hl,
        compare_mul_add (bigEndian_lt a) (by rw [hl]; exact bigEndian_lt b),
        UInt8.compare_eq_toNat_compare_toNat]

/-- The number that complemented bytes write. -/
theorem bigEndian_complement (a : List UInt8) :
    bigEndian (a.map (· ^^^ 0xFF)) + bigEndian a + 1 = Nat.pow 256 a.length := by
  have hbyte : ∀ x : UInt8, (x ^^^ 0xFF).toNat + x.toNat = 255 := fun x =>
    (by decide +kernel :
      ∀ n : Fin 256, (UInt8.ofFin n ^^^ 0xFF).toNat + (UInt8.ofFin n).toNat = 255)
      x.toFin
  induction a with
  | nil => rfl
  | cons x a ih =>
    have hx := hbyte x
    rw [List.map_cons, bigEndian_cons, bigEndian_cons, List.length_map, List.length_cons,
      pow_length_succ]
    calc (x ^^^ 0xFF).toNat * Nat.pow 256 a.length + bigEndian (a.map (· ^^^ 0xFF)) +
          (x.toNat * Nat.pow 256 a.length + bigEndian a) + 1
        = ((x ^^^ 0xFF).toNat + x.toNat) * Nat.pow 256 a.length +
          (bigEndian (a.map (· ^^^ 0xFF)) + bigEndian a + 1) := by ring
      _ = Nat.pow 256 a.length * 256 := by rw [hx, ih]; ring

/-- **Complemented bytes** are in the opposite order. -/
theorem compare_complement {a b : List UInt8} (h : a.length = b.length) :
    compare (a.map (· ^^^ 0xFF)) (b.map (· ^^^ 0xFF)) = compare b a := by
  have ha := bigEndian_complement a
  have hb := bigEndian_complement b
  rw [compare_bigEndian (by simpa using h), compare_bigEndian h.symm]
  rw [← h] at hb
  exact compare_congr (by omega) (by omega) (by omega)

/-! ### Texts -/

/-- The bytes of a text. -/
def octets (cs : List Char) : List UInt8 := cs.flatMap String.utf8EncodeChar

theorem encode_ofList (cs : List Char) : Utf8.encode (String.ofList cs) = octets cs := by
  rw [Utf8.encode, String.toList_ofList]
  rfl

theorem octets_cons (c : Char) (cs : List Char) :
    octets (c :: cs) = String.utf8EncodeChar c ++ octets cs := List.flatMap_cons

theorem compare_octets_nil : compare (octets []) (octets []) = .eq := rfl

theorem compare_octets_cons (c : Char) (cs ds : List Char) :
    compare (octets (c :: cs)) (octets (c :: ds)) = compare (octets cs) (octets ds) :=
  compare_append_left ..

open Numeral (Digits value value_cons value_lt)

theorem digits_take {ds : List Char} (h : Digits ds) (n : Nat) : Digits (ds.take n) := fun c hc =>
  h c (List.mem_of_mem_take hc)

theorem digits_drop {ds : List Char} (h : Digits ds) (n : Nat) : Digits (ds.drop n) := fun c hc =>
  h c (List.mem_of_mem_drop hc)

theorem value_lt_of_length {ds : List Char} (h : Digits ds) {n : Nat} (hl : ds.length = n) :
    value ds < 10 ^ n := by
  rw [← hl]
  exact value_lt h

/-- A digit is a byte. -/
theorem encode_digit {c : Char} (h : c.isDigit) :
    String.utf8EncodeChar c = [UInt8.ofNat c.toNat] ∧ 48 ≤ c.toNat ∧ c.toNat < 58 := by
  simp only [Char.isDigit, Bool.and_eq_true, decide_eq_true_eq] at h
  have hlow : 48 ≤ c.toNat := h.1
  have hhigh : c.toNat ≤ 57 := h.2
  have hle : c.val.toNat ≤ 127 := Nat.le_trans hhigh (by omega)
  refine ⟨?_, hlow, by omega⟩
  simp only [String.utf8EncodeChar, hle, if_true]
  rfl

/-- **Texts that begin with as many digits** are in the order of the numbers that these write, and
then in that of what follows. -/
theorem compare_octets_digits {ds es : List Char} (hd : Digits ds) (he : Digits es)
    (h : ds.length = es.length) (cs cs' : List Char) :
    compare (octets (ds ++ cs)) (octets (es ++ cs')) =
      (compare (value ds) (value es)).then (compare (octets cs) (octets cs')) := by
  induction ds generalizing es with
  | nil =>
    rw [List.eq_nil_of_length_eq_zero h.symm]
    rfl
  | cons c ds ih =>
    cases es with
    | nil => cases h
    | cons e es =>
      have hl : ds.length = es.length := by simpa using h
      obtain ⟨hc, hc₀, hc₁⟩ := encode_digit (hd c List.mem_cons_self)
      obtain ⟨he', he₀, he₁⟩ := encode_digit (he e List.mem_cons_self)
      have hbyte : compare (UInt8.ofNat c.toNat) (UInt8.ofNat e.toNat) =
          compare (c.toNat - '0'.toNat) (e.toNat - '0'.toNat) := by
        have hzero : '0'.toNat = 48 := rfl
        rw [UInt8.compare_eq_toNat_compare_toNat, UInt8.toNat_ofNat', UInt8.toNat_ofNat', hzero]
        exact compare_congr (by omega) (by omega) (by omega)
      rw [List.cons_append, List.cons_append, octets_cons, octets_cons, hc, he',
        List.singleton_append, List.singleton_append, List.compare_cons_cons,
        ih hd.tail he.tail hl, hbyte, value_cons, value_cons, ← hl,
        compare_mul_add (value_lt hd.tail) (value_lt_of_length he.tail hl.symm),
        Ordering.then_assoc]

/-! ### Digits of fixed width -/

theorem digits_padded (w n : Nat) : Digits (Numeral.padded w n) := by
  intro c hc
  unfold Numeral.padded at hc
  rcases List.mem_append.mp hc with hc | hc
  · rw [List.eq_of_mem_replicate hc]
    decide
  · exact Numeral.isDigit_of_mem_digits hc

theorem padded_ne_nil (w n : Nat) : Numeral.padded w n ≠ [] :=
  List.append_ne_nil_of_right_ne_nil _ (Numeral.digits_ne_nil n)

theorem value_padded (w n : Nat) : value (Numeral.padded w n) = n := by
  unfold Numeral.padded List.leftpad
  rw [Numeral.value_append, Numeral.value_replicate_zero, Nat.zero_mul, Nat.zero_add]
  exact Nat.ofDigitChars_toDigits (by decide) (by decide)

theorem length_padded {w n : Nat} (hw : 0 < w) (h : n < 10 ^ w) :
    (Numeral.padded w n).length = w := by
  have hle : (Nat.toDigits 10 n).length ≤ w := (Nat.length_toDigits_le_iff (by decide) hw).mpr h
  unfold Numeral.padded Numeral.digits
  rw [List.length_leftpad]
  omega

/-- Texts that begin with a number of fixed width. -/
theorem compare_octets_padded {w m n : Nat} (hw : 0 < w) (hm : m < 10 ^ w) (hn : n < 10 ^ w)
    (cs ds : List Char) :
    compare (octets (Numeral.padded w m ++ cs)) (octets (Numeral.padded w n ++ ds)) =
      (compare m n).then (compare (octets cs) (octets ds)) := by
  rw [compare_octets_digits (digits_padded w m) (digits_padded w n)
    (by rw [length_padded hw hm, length_padded hw hn]), value_padded, value_padded]

/-! ### Latin-1 -/

/-- The bytes of a character of Latin-1: itself, or two, the first of which tells its high bits. -/
theorem encode_latin1 (b : UInt8) : String.utf8EncodeChar (Char.ofNat b.toNat) =
    if b.toNat < 128 then [b]
    else [UInt8.ofNat (192 + b.toNat / 64), UInt8.ofNat (128 + b.toNat % 64)] :=
  (by decide +kernel : ∀ n : Fin 256, String.utf8EncodeChar (Char.ofNat (UInt8.ofFin n).toNat) =
    if (UInt8.ofFin n).toNat < 128 then [UInt8.ofFin n]
    else [UInt8.ofNat (192 + (UInt8.ofFin n).toNat / 64),
      UInt8.ofNat (128 + (UInt8.ofFin n).toNat % 64)]) b.toFin

theorem compare_encode_latin1 (x y : UInt8) (a b : List UInt8) :
    compare (String.utf8EncodeChar (Char.ofNat x.toNat) ++ a)
      (String.utf8EncodeChar (Char.ofNat y.toNat) ++ b) = (compare x y).then (compare a b) := by
  have hx : x.toNat < 256 := x.toNat_lt
  have hy : y.toNat < 256 := y.toNat_lt
  rw [encode_latin1, encode_latin1]
  by_cases hx' : x.toNat < 128
  · by_cases hy' : y.toNat < 128
    · rw [if_pos hx', if_pos hy']
      exact List.compare_cons_cons
    · -- a single byte is below the first of two
      have hlt : compare x (UInt8.ofNat (192 + y.toNat / 64)) = .lt := by
        rw [UInt8.compare_eq_toNat_compare_toNat, UInt8.toNat_ofNat', compare_lt_iff_lt]
        omega
      have hxy : compare x y = .lt := by
        rw [UInt8.compare_eq_toNat_compare_toNat, compare_lt_iff_lt]
        omega
      rw [if_pos hx', if_neg hy']
      simp only [List.cons_append, List.compare_cons_cons, hlt, hxy]
      rfl
  · by_cases hy' : y.toNat < 128
    · have hgt : compare (UInt8.ofNat (192 + x.toNat / 64)) y = .gt := by
        rw [UInt8.compare_eq_toNat_compare_toNat, UInt8.toNat_ofNat', compare_gt_iff_gt]
        omega
      have hxy : compare x y = .gt := by
        rw [UInt8.compare_eq_toNat_compare_toNat, compare_gt_iff_gt]
        omega
      rw [if_neg hx', if_pos hy']
      simp only [List.cons_append, List.compare_cons_cons, hgt, hxy]
      rfl
    · have hfields := compare_div_mod (show 0 < 64 by omega) x.toNat y.toNat
      have hhigh : compare (UInt8.ofNat (192 + x.toNat / 64)) (UInt8.ofNat (192 + y.toNat / 64)) =
          compare (x.toNat / 64) (y.toNat / 64) := by
        rw [UInt8.compare_eq_toNat_compare_toNat, UInt8.toNat_ofNat', UInt8.toNat_ofNat']
        exact compare_congr (by omega) (by omega) (by omega)
      have hlow : compare (UInt8.ofNat (128 + x.toNat % 64)) (UInt8.ofNat (128 + y.toNat % 64)) =
          compare (x.toNat % 64) (y.toNat % 64) := by
        rw [UInt8.compare_eq_toNat_compare_toNat, UInt8.toNat_ofNat', UInt8.toNat_ofNat']
        exact compare_congr (by omega) (by omega) (by omega)
      rw [if_neg hx', if_neg hy']
      simp only [List.cons_append, List.compare_cons_cons, hhigh, hlow]
      rw [← Ordering.then_assoc, ← hfields, ← UInt8.compare_eq_toNat_compare_toNat]
      rfl

/-- **Texts of Latin-1** are in the order of their bytes in that character set. -/
theorem compare_octets_latin1 (a b : List UInt8) :
    compare (Utf8.encode (Utf8.ofLatin1 a)) (Utf8.encode (Utf8.ofLatin1 b)) = compare a b := by
  unfold Utf8.ofLatin1
  rw [encode_ofList, encode_ofList]
  induction a generalizing b with
  | nil =>
    cases b with
    | nil => rfl
    | cons y b =>
      obtain ⟨z, l, hz⟩ := List.exists_cons_of_ne_nil
        (show String.utf8EncodeChar (Char.ofNat y.toNat) ≠ [] from String.utf8EncodeChar_ne_nil)
      rw [List.compare_nil_cons, List.map_cons, octets_cons, hz]
      exact List.compare_nil_cons
  | cons x a ih =>
    cases b with
    | nil =>
      obtain ⟨z, l, hz⟩ := List.exists_cons_of_ne_nil
        (show String.utf8EncodeChar (Char.ofNat x.toNat) ≠ [] from String.utf8EncodeChar_ne_nil)
      rw [List.compare_cons_nil, List.map_cons, octets_cons, hz]
      exact List.compare_cons_nil
    | cons y b =>
      rw [List.map_cons, List.map_cons, octets_cons, octets_cons, compare_encode_latin1, ih,
        List.compare_cons_cons]

end Tablespace
