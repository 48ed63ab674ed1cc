import Mathlib.Data.Nat.ModEq
import Tablespace.Image
import Tablespace.Proofs.ByteOrder

/-! # What a change of one byte does to the checksums

Both checksums fold bytes, or numbers made of them, into a state. A step of either fold can be
undone if the other argument is known: the state after it tells two states apart, and two numbers.
So the states differ from the changed byte on to the end. For the older checksum this holds of the
32 lowest bits of the state, which are all that is kept of it.

* `DiffersOnce`: two lists that differ in one member.
* `DiffersOnce.foldl`: what such lists do to a fold whose step can be undone.
* `Checksum.foldPair_left`, `Checksum.foldPair_right`, `Checksum.crcByte_left`,
  `Checksum.crcByte_right`: the steps can be undone.
* `Checksum.differsOnce_units`: a changed byte changes one of the numbers that are folded.
* `Checksum.detects_byte`: both checksums tell pages apart that differ in one covered byte.
  `Checksum.checksums_ne_of_body`: every byte of the body is covered. -/

namespace Tablespace

/-! ### Lists that differ in one member -/

/-- **Two lists that differ in one member**, which `R` relates. -/
inductive DiffersOnce (R : α → α → Prop) : List α → List α → Prop
  | head {a b : α} {l : List α} (h : R a b) : DiffersOnce R (a :: l) (b :: l)
  | tail {a : α} {l m : List α} (h : DiffersOnce R l m) : DiffersOnce R (a :: l) (a :: m)

namespace DiffersOnce
variable {R : α → α → Prop} {l m : List α}

theorem length_eq (h : DiffersOnce R l m) : l.length = m.length := by
  induction h with
  | head => rfl
  | tail _ ih => rw [List.length_cons, List.length_cons, ih]

theorem ne {l m : List α} (h : DiffersOnce (· ≠ ·) l m) : l ≠ m := by
  induction h with
  | head hne =>
    intro e
    exact hne (List.head_eq_of_cons_eq e)
  | tail _ ih =>
    intro e
    exact ih (List.tail_eq_of_cons_eq e)

theorem append_left (k : List α) (h : DiffersOnce R l m) : DiffersOnce R (k ++ l) (k ++ m) := by
  induction k with
  | nil => exact h
  | cons a k ih => exact .tail ih

theorem append_right (k : List α) (h : DiffersOnce R l m) : DiffersOnce R (l ++ k) (m ++ k) := by
  induction h with
  | head hR => exact .head hR
  | tail _ ih => exact .tail ih

theorem map {S : β → β → Prop} {f : α → β} (hf : ∀ a b, R a b → S (f a) (f b))
    (h : DiffersOnce R l m) : DiffersOnce S (l.map f) (m.map f) := by
  induction h with
  | head hR => exact .head (hf _ _ hR)
  | tail _ ih => exact .tail ih

/-- Two lists cut at the same place differ on one side of the cut. -/
theorem split (h : DiffersOnce R l m) (n : Nat) :
    DiffersOnce R (l.take n) (m.take n) ∧ l.drop n = m.drop n ∨
      l.take n = m.take n ∧ DiffersOnce R (l.drop n) (m.drop n) := by
  induction h generalizing n with
  | head hR =>
    cases n with
    | zero => exact .inr ⟨rfl, .head hR⟩
    | succ n => exact .inl ⟨.head hR, rfl⟩
  | @tail a l m h ih =>
    cases n with
    | zero => exact .inr ⟨rfl, .tail h⟩
    | succ n =>
      rcases ih n with ⟨htake, hdrop⟩ | ⟨htake, hdrop⟩
      · exact .inl ⟨.tail htake, hdrop⟩
      · exact .inr ⟨congrArg (a :: ·) htake, hdrop⟩

/-- **A fold whose step can be undone tells apart lists that differ in one member.** The states
after that member differ as `S` says, and so they do up to the end. -/
theorem foldl {S : σ → σ → Prop} {step : σ → α → σ}
    (hleft : ∀ s t a, S s t → S (step s a) (step t a))
    (hright : ∀ s a b, R a b → S (step s a) (step s b)) (h : DiffersOnce R l m) (s : σ) :
    S (l.foldl step s) (m.foldl step s) := by
  -- states that differ stay so
  have hkeep : ∀ (l : List α) (s t : σ), S s t → S (l.foldl step s) (l.foldl step t) := by
    intro l
    induction l with
    | nil => exact fun _ _ h => h
    | cons a l ih => exact fun s t h => ih _ _ (hleft s t a h)
  induction h generalizing s with
  | head hR => exact hkeep _ _ _ (hright s _ _ hR)
  | tail _ ih => exact ih _

end DiffersOnce

namespace Checksum

/-! ### The step of CRC-32C -/

theorem toNat_and_one (c : UInt32) : c &&& 1 = 1 ↔ c.toNat % 2 = 1 := by
  rw [← UInt32.toNat_inj, UInt32.toNat_and]
  show c.toNat &&& 1 = 1 ↔ _
  rw [Nat.and_one_is_mod]

theorem toNat_shiftRight_one (c : UInt32) : (c >>> 1).toNat = c.toNat / 2 := by
  rw [UInt32.toNat_shiftRight]
  exact Nat.shiftRight_eq_div_pow _ 1

/-- The highest bit after a division step is the lowest bit before it. -/
theorem le_crcBit_iff (c : UInt32) : 2 ^ 31 ≤ (crcBit c).toNat ↔ c.toNat % 2 = 1 := by
  have hc : c.toNat / 2 < 2 ^ 31 := by
    have hlt := c.toNat_lt
    omega
  unfold crcBit
  by_cases hodd : c &&& 1 = 1
  · rw [if_pos hodd, UInt32.toNat_xor, toNat_shiftRight_one]
    have hbit : (c.toNat / 2 ^^^ polynomial.toNat).testBit 31 = true := by
      rw [Nat.testBit_xor, Nat.testBit_lt_two_pow hc]
      decide
    exact iff_of_true (Nat.ge_two_pow_of_testBit hbit) ((toNat_and_one c).mp hodd)
  · rw [if_neg hodd, toNat_shiftRight_one]
    exact iff_of_false (by omega) fun h => hodd ((toNat_and_one c).mpr h)

/-- **A division step can be undone.** -/
theorem crcBit_injective : Function.Injective crcBit := by
  intro c d h
  have hparity : c.toNat % 2 = 1 ↔ d.toNat % 2 = 1 := by
    rw [← le_crcBit_iff, ← le_crcBit_iff, h]
  have hshift : c >>> 1 = d >>> 1 := by
    unfold crcBit at h
    by_cases hodd : c.toNat % 2 = 1
    · rw [if_pos ((toNat_and_one c).mpr hodd),
        if_pos ((toNat_and_one d).mpr (hparity.mp hodd))] at h
      exact (UInt32.xor_left_inj _).mp h
    · rw [if_neg fun hc => hodd ((toNat_and_one c).mp hc),
        if_neg fun hd => hodd (hparity.mpr ((toNat_and_one d).mp hd))] at h
      exact h
  have hhalf : c.toNat / 2 = d.toNat / 2 := by
    rw [← toNat_shiftRight_one, ← toNat_shiftRight_one, hshift]
  apply UInt32.toNat_inj.mp
  omega

/-- The division steps of a byte depend on the state and the byte by their sum alone. -/
theorem crcByte_eq_iff {c d : UInt32} {a b : UInt8} :
    crcByte c a = crcByte d b ↔ c ^^^ a.toUInt32 = d ^^^ b.toUInt32 := by
  unfold crcByte
  simp only [crcBit_injective.eq_iff]

theorem crcByte_left (c d : UInt32) (a : UInt8) (h : c ≠ d) : crcByte c a ≠ crcByte d a := by
  intro e
  exact h ((UInt32.xor_left_inj _).mp (crcByte_eq_iff.mp e))

theorem crcByte_right (c : UInt32) (a b : UInt8) (h : a ≠ b) : crcByte c a ≠ crcByte c b := by
  intro e
  exact h (UInt8.toUInt32_inj.mp ((UInt32.xor_right_inj _).mp (crcByte_eq_iff.mp e)))

/-- **CRC-32C detects a changed byte.** -/
theorem crc_ne {l m : List UInt8} (h : DiffersOnce (· ≠ ·) l m) : crc l ≠ crc m := by
  intro e
  unfold crc at e
  exact h.foldl crcByte_left crcByte_right _ ((UInt32.xor_left_inj _).mp e)

/-! ### The step of the older fold -/

/-- Numbers that differ in their 32 lowest bits. -/
def Apart (m n : UInt64) : Prop := ¬ m.toNat ≡ n.toNat [MOD 2 ^ 32]

theorem modEq_xor {a b k : Nat} (c : Nat) (h : a ≡ b [MOD 2 ^ k]) :
    a ^^^ c ≡ b ^^^ c [MOD 2 ^ k] := by
  unfold Nat.ModEq at h ⊢
  rw [Nat.xor_mod_two_pow, Nat.xor_mod_two_pow, h]

theorem modEq_xor_iff {a b k : Nat} (c : Nat) :
    a ^^^ c ≡ b ^^^ c [MOD 2 ^ k] ↔ a ≡ b [MOD 2 ^ k] := by
  refine ⟨fun h => ?_, modEq_xor c⟩
  have hback := modEq_xor c h
  rwa [Nat.xor_assoc a, Nat.xor_assoc b, Nat.xor_self, Nat.xor_zero, Nat.xor_zero] at hback

theorem modEq_mul_pow {k a b : Nat} (h : a ≡ b [MOD 2 ^ k]) :
    a * 2 ^ 8 ≡ b * 2 ^ 8 [MOD 2 ^ (k + 8)] := by
  rw [pow_add]
  exact h.mul_right' _

/-- A step of the fold, on numbers of any size. -/
def foldSum (m n : Nat) : Nat := ((m ^^^ n ^^^ 1653893711) * 2 ^ 8 + m) ^^^ 1463735687

theorem toNat_foldPair (m n : UInt64) :
    (foldPair m n).toNat ≡ foldSum m.toNat n.toNat + n.toNat [MOD 2 ^ 32] := by
  have hword : ∀ a : Nat, a % 2 ^ 64 ≡ a [MOD 2 ^ 32] := fun a =>
    (Nat.mod_modEq a (2 ^ 64)).of_dvd (pow_dvd_pow 2 (by decide))
  unfold foldPair foldSum
  rw [UInt64.toNat_add, UInt64.toNat_xor, UInt64.toNat_add, UInt64.toNat_shiftLeft,
    UInt64.toNat_xor, UInt64.toNat_xor]
  refine (hword _).trans (.add_right _ (modEq_xor _ ((hword _).trans (.add_right _ ?_))))
  refine (hword _).trans ?_
  show (_ ^^^ _ ^^^ 1653893711) <<< 8 ≡ _ [MOD _]
  rw [Nat.shiftLeft_eq]

/-- A number is told by its sum with what depends on it only shifted by eight bits: the eight lowest
bits are told first, and from any bits the next eight. -/
theorem modEq_of_add {f : Nat → Nat}
    (hf : ∀ k a b, a ≡ b [MOD 2 ^ k] → f a ≡ f b [MOD 2 ^ (k + 8)]) {a b : Nat}
    (h : f a + a ≡ f b + b [MOD 2 ^ 32]) : a ≡ b [MOD 2 ^ 32] := by
  have hbits : ∀ i ≤ 4, a ≡ b [MOD 2 ^ (8 * i)] := by
    intro i
    induction i with
    | zero =>
      intro _
      exact Nat.modEq_one
    | succ i ih =>
      intro hi
      have hsum : f a + a ≡ f b + b [MOD 2 ^ (8 * i + 8)] :=
        h.of_dvd (pow_dvd_pow 2 (by omega))
      exact (hf _ a b (ih (by omega))).add_left_cancel hsum
  exact hbits 4 le_rfl

theorem foldPair_left (m m' n : UInt64) (h : Apart m m') :
    Apart (foldPair m n) (foldPair m' n) := by
  intro e
  apply h
  have hsum : foldSum m.toNat n.toNat ≡ foldSum m'.toNat n.toNat [MOD 2 ^ 32] :=
    Nat.ModEq.add_right_cancel' n.toNat
      ((toNat_foldPair m n).symm.trans (e.trans (toNat_foldPair m' n)))
  -- what the state is added to depends on it only shifted
  refine modEq_of_add (f := fun a => (a ^^^ n.toNat ^^^ 1653893711) * 2 ^ 8) ?_
    ((modEq_xor_iff _).mp hsum)
  intro k a b hab
  exact modEq_mul_pow (modEq_xor _ (modEq_xor _ hab))

theorem foldPair_right (m n n' : UInt64) (h : Apart n n') :
    Apart (foldPair m n) (foldPair m n') := by
  intro e
  apply h
  refine modEq_of_add (f := foldSum m.toNat) ?_
    ((toNat_foldPair m n).symm.trans (e.trans (toNat_foldPair m n')))
  intro k a b hab
  have hxor : m.toNat ^^^ a ≡ m.toNat ^^^ b [MOD 2 ^ k] := by
    rw [Nat.xor_comm, Nat.xor_comm _ b]
    exact modEq_xor _ hab
  exact modEq_xor _ ((modEq_mul_pow (modEq_xor _ hxor)).add_right _)

/-! ### The numbers that are folded -/

theorem apart_of_lt {m n : UInt64} (hm : m.toNat < 2 ^ 32) (hn : n.toNat < 2 ^ 32) (h : m ≠ n) :
    Apart m n := by
  intro e
  unfold Nat.ModEq at e
  rw [Nat.mod_eq_of_lt hm, Nat.mod_eq_of_lt hn] at e
  exact h (UInt64.toNat_inj.mp e)

theorem apart_toUInt64 (a b : UInt8) (h : a ≠ b) : Apart a.toUInt64 b.toUInt64 := by
  have ha := a.toNat_lt
  have hb := b.toNat_lt
  refine apart_of_lt ?_ ?_ fun e => h ?_
  · rw [UInt8.toNat_toUInt64]
    omega
  · rw [UInt8.toNat_toUInt64]
    omega
  · rw [← UInt8.toNat_inj, ← UInt8.toNat_toUInt64, e, UInt8.toNat_toUInt64]

theorem eq_of_bigEndian_eq {l m : List UInt8} (hl : l.length = m.length)
    (h : bigEndian l = bigEndian m) : l = m := by
  have hcompare := compare_bigEndian hl
  rw [h, Std.ReflOrd.compare_self] at hcompare
  exact Std.LawfulEqOrd.eq_of_compare hcompare

theorem words_append {l m : List UInt8} (hl : l.length = 4) :
    words (l ++ m) = UInt64.ofNat (bigEndian l) :: words m := by
  obtain ⟨a, b, c, d, rfl⟩ := List.length_eq_four.mp hl
  rfl

theorem apart_word {l m : List UInt8} (hl : l.length = 4) (hm : m.length = 4) (h : l ≠ m) :
    Apart (UInt64.ofNat (bigEndian l)) (UInt64.ofNat (bigEndian m)) := by
  have hword : ∀ k : List UInt8, k.length = 4 →
      bigEndian k < 2 ^ 32 ∧ (UInt64.ofNat (bigEndian k)).toNat = bigEndian k := by
    intro k hk
    have hlt := bigEndian_lt k
    rw [hk] at hlt
    have hpow : Nat.pow 256 4 = 2 ^ 32 := rfl
    refine ⟨by omega, ?_⟩
    rw [UInt64.toNat_ofNat']
    exact Nat.mod_eq_of_lt (by omega)
  obtain ⟨hl32, hln⟩ := hword l hl
  obtain ⟨hm32, hmn⟩ := hword m hm
  refine apart_of_lt (by omega) (by omega) fun e => ?_
  have hsame := congrArg UInt64.toNat e
  rw [hln, hmn] at hsame
  exact h (eq_of_bigEndian_eq (by omega) hsame)

/-- **A changed byte changes one of the words** that bytes are grouped to. -/
theorem differsOnce_words {l m : List UInt8} {k : Nat} (h : DiffersOnce (· ≠ ·) l m)
    (hk : l.length = 4 * k) : DiffersOnce Apart (words l) (words m) := by
  induction k generalizing l m with
  | zero =>
    cases h with
    | head => cases hk
    | tail => cases hk
  | succ k ih =>
    have hm : m.length = 4 * (k + 1) := h.length_eq.symm.trans hk
    have htake : ∀ n : List UInt8, n.length = 4 * (k + 1) → (n.take 4).length = 4 := by
      intro n hn
      rw [List.length_take, hn]
      omega
    rw [← List.take_append_drop 4 l, ← List.take_append_drop 4 m, words_append (htake l hk),
      words_append (htake m hm)]
    rcases h.split 4 with ⟨hfirst, hrest⟩ | ⟨hfirst, hrest⟩
    · rw [hrest]
      exact .head (apart_word (htake l hk) (htake m hm) hfirst.ne)
    · rw [hfirst]
      refine .tail (ih hrest ?_)
      rw [List.length_drop, hk]
      omega

theorem differsOnce_tailUnits {l m : List UInt8} (h : DiffersOnce (· ≠ ·) l m)
    (hl : l.length < 8) : DiffersOnce Apart (tailUnits l) (tailUnits m) := by
  unfold tailUnits
  rw [← h.length_eq]
  generalize hn : (if l.length < 4 then l.length else l.length - 4) = n
  dsimp only
  have hdrop : (l.drop n).length = 4 * (l.length / 4) := by
    rw [List.length_drop, ← hn]
    split <;> omega
  rcases h.split n with ⟨hbytes, hword⟩ | ⟨hbytes, hword⟩
  · rw [hword]
    exact (hbytes.map apart_toUInt64).append_right _
  · rw [hbytes]
    exact (differsOnce_words hword hdrop).append_left _

/-- **A changed byte changes one of the numbers that are folded**, in a word or by itself. -/
theorem differsOnce_units {l m : List UInt8} (h : DiffersOnce (· ≠ ·) l m) :
    DiffersOnce Apart (units l) (units m) := by
  unfold units
  dsimp only
  rw [← h.length_eq]
  rcases h.split (l.length / 8 * 8) with ⟨hwords, htail⟩ | ⟨hwords, htail⟩
  · rw [htail]
    refine (differsOnce_words (k := l.length / 8 * 2) hwords ?_).append_right _
    rw [List.length_take]
    omega
  · rw [hwords]
    refine (differsOnce_tailUnits htail ?_).append_left _
    rw [List.length_drop]
    omega

/-- **The older fold detects a changed byte** in its 32 lowest bits. -/
theorem apart_fold {l m : List UInt8} (h : DiffersOnce (· ≠ ·) l m) : Apart (fold l) (fold m) :=
  (differsOnce_units h).foldl foldPair_left foldPair_right 0

end Checksum

/-! ### Pages -/

namespace Buffer
variable {p q : Buffer} {start n : Nat}

theorem bytes_congr (h : ∀ j, start ≤ j → j < start + n → p.byte j = q.byte j) :
    p.bytes start n = q.bytes start n := by
  induction n generalizing start with
  | zero => rfl
  | succ n ih =>
    rw [bytes, bytes, h start (Nat.le_refl _) (by omega)]
    exact congrArg _ (ih fun j hj hlt => h j (by omega) (by omega))

theorem differsOnce_bytes {i : Nat} (hi : start ≤ i ∧ i < start + n) (hne : p.byte i ≠ q.byte i)
    (h : ∀ j, start ≤ j → j < start + n → j ≠ i → p.byte j = q.byte j) :
    DiffersOnce (· ≠ ·) (p.bytes start n) (q.bytes start n) := by
  induction n generalizing start with
  | zero => omega
  | succ n ih =>
    rw [bytes, bytes]
    by_cases hs : start = i
    · subst hs
      rw [bytes_congr fun j hj hlt => h j (by omega) (by omega) (by omega)]
      exact .head hne
    · rw [h start (Nat.le_refl _) (by omega) hs]
      exact .tail (ih (by omega) fun j hj hlt => h j (by omega) (by omega))

end Buffer

namespace Checksum

/-- **The offsets that a checksum covers**: the header from the page number up to the kind, and the
body. -/
def Covers (i : Nat) : Prop := 4 ≤ i ∧ i < 26 ∨ headerSize ≤ i ∧ i < bodyEnd

variable {p q : Buffer}

theorem headBytes_congr (h : ∀ j, 4 ≤ j ∧ j < 26 → p.byte j = q.byte j) :
    headBytes p = headBytes q :=
  Buffer.bytes_congr fun j hj hlt => h j ⟨hj, hlt⟩

theorem bodyBytes_congr (h : ∀ j, headerSize ≤ j ∧ j < bodyEnd → p.byte j = q.byte j) :
    bodyBytes p = bodyBytes q :=
  Buffer.bytes_congr fun j hj hlt => h j ⟨hj, hlt⟩

/-- **The covered bytes differ once**: those of one range do, and those of the other are the
same. -/
def RangesDifferOnce (p q : Buffer) : Prop :=
  DiffersOnce (· ≠ ·) (headBytes p) (headBytes q) ∧ bodyBytes p = bodyBytes q ∨
    headBytes p = headBytes q ∧ DiffersOnce (· ≠ ·) (bodyBytes p) (bodyBytes q)

theorem rangesDifferOnce_of_byte {i : Nat} (hi : Covers i) (hne : p.byte i ≠ q.byte i)
    (h : ∀ j < pageSize, j ≠ i → p.byte j = q.byte j) : RangesDifferOnce p q := by
  have hpage : bodyEnd ≤ pageSize ∧ headerSize = 38 ∧ 26 ≤ pageSize := by decide
  rcases hi with ⟨hlow, hhigh⟩ | ⟨hlow, hhigh⟩
  · exact .inl ⟨Buffer.differsOnce_bytes ⟨hlow, hhigh⟩ hne fun j _ _ hj => h j (by omega) hj,
      bodyBytes_congr fun j hj => h j (by omega) (by omega)⟩
  · have hbody : headerSize + (bodyEnd - headerSize) = bodyEnd := by decide
    refine .inr ⟨headBytes_congr fun j hj => h j (by omega) (by omega), ?_⟩
    exact Buffer.differsOnce_bytes ⟨hlow, by omega⟩ hne fun j _ _ hj => h j (by omega) hj

theorem legacy_eq_iff : legacy p = legacy q ↔
    (fold (headBytes p)).toNat + (fold (bodyBytes p)).toNat ≡
      (fold (headBytes q)).toNat + (fold (bodyBytes q)).toNat [MOD 2 ^ 32] := by
  unfold legacy Nat.ModEq
  rw [← UInt32.toNat_inj, UInt64.toNat_toUInt32, UInt64.toNat_toUInt32, UInt64.toNat_add,
    UInt64.toNat_add]
  omega

theorem RangesDifferOnce.legacy_ne (h : RangesDifferOnce p q) : legacy p ≠ legacy q := by
  intro e
  have hsum := legacy_eq_iff.mp e
  rcases h with ⟨hhead, hbody⟩ | ⟨hhead, hbody⟩
  · rw [hbody] at hsum
    exact apart_fold hhead (Nat.ModEq.add_right_cancel' _ hsum)
  · rw [hhead] at hsum
    exact apart_fold hbody (Nat.ModEq.add_left_cancel' _ hsum)

theorem RangesDifferOnce.crc32c_ne (h : RangesDifferOnce p q) : crc32c p ≠ crc32c q := by
  intro e
  unfold crc32c at e
  rcases h with ⟨hhead, hbody⟩ | ⟨hhead, hbody⟩
  · rw [hbody] at e
    exact crc_ne hhead ((UInt32.xor_left_inj _).mp e)
  · rw [hhead] at e
    exact crc_ne hbody ((UInt32.xor_right_inj _).mp e)

/-- **All of the body of a page is covered**: pages that differ in one byte of it have other
checksums. -/
theorem checksums_ne_of_body {p q : Page} {i : Nat} (hi : i < p.body.size)
    (hne : p.body.byte i ≠ q.body.byte i)
    (h : ∀ j < pageSize, j ≠ headerSize + i → p.data.byte j = q.data.byte j) :
    legacy p.data ≠ legacy q.data ∧ crc32c p.data ≠ crc32c q.data := by
  have hlast : headerSize + i < bodyEnd := by
    have hsize : i < bodyEnd - headerSize := hi
    omega
  have hranges := rangesDifferOnce_of_byte (.inr ⟨Nat.le_add_right .., hlast⟩) hne h
  exact ⟨hranges.legacy_ne, hranges.crc32c_ne⟩

/-- **Both checksums detect a change of one covered byte**, and neither depends on bytes that they
do not cover. -/
theorem detects_byte (p q : Buffer) :
    (∀ i, Covers i → p.byte i ≠ q.byte i → (∀ j < pageSize, j ≠ i → p.byte j = q.byte j) →
        legacy p ≠ legacy q ∧ crc32c p ≠ crc32c q) ∧
      ((∀ j, Covers j → p.byte j = q.byte j) → legacy p = legacy q ∧ crc32c p = crc32c q) := by
  constructor
  · intro i hi hne h
    have hranges := rangesDifferOnce_of_byte hi hne h
    exact ⟨hranges.legacy_ne, hranges.crc32c_ne⟩
  · intro h
    have hhead : headBytes p = headBytes q := headBytes_congr fun j hj => h j (.inl hj)
    have hbody : bodyBytes p = bodyBytes q := bodyBytes_congr fun j hj => h j (.inr hj)
    unfold legacy crc32c
    rw [hhead, hbody]
    exact ⟨rfl, rfl⟩

/-- A page of zeros, and one with a bit set in the last byte of the body. -/
theorem detects_byte_last :
    legacy ⟨pageSize, fun _ => 0⟩ ≠ legacy ⟨pageSize, fun i => if i = 16375 then 1 else 0⟩ ∧
      crc32c ⟨pageSize, fun _ => 0⟩ ≠
        crc32c ⟨pageSize, fun i => if i = 16375 then 1 else 0⟩ := by
  refine (detects_byte _ _).1 16375 (.inr (by decide)) (by decide) ?_
  intro j _ hj
  exact (if_neg hj).symm

end Checksum
end Tablespace
