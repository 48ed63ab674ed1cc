import Mathlib.Algebra.Order.Field.Rat
import Mathlib.Data.List.TakeWhile
import Mathlib.Tactic.FieldSimp
import Mathlib.Tactic.Positivity
import Mathlib.Tactic.Ring
import Tablespace.Value.Duration
import Tablespace.Value.Exact

/-! # What texts write

The grammar of decimals and of times, with the number that each text writes: a rational number, and
a whole number of microseconds. The readers of both accept the texts of their grammar and no others.

* `Exact.Writes`: decimals. `Exact.toRat`: the rational number that a decimal is.
  `Exact.ofText?_of_writes`, `Exact.writes_of_ofText?`: a text is read as the number that it writes.
* `Duration.Writes`, `Duration.total?_eq_some_iff`: times. `Duration.micros?_of_writes`: those whose
  microseconds fit 64 bits are counted right. -/

namespace Tablespace

/-! ### Digits -/

namespace Numeral

/-- **Decimal digits.** -/
def Digits (cs : List Char) : Prop := ∀ c ∈ cs, c.isDigit

theorem Digits.tail {c : Char} {ds : List Char} (h : Digits (c :: ds)) : Digits ds := fun d hd =>
  h d (List.mem_cons_of_mem _ hd)

/-- The number that digits write. -/
def value (cs : List Char) : Nat := Nat.ofDigitChars 10 cs 0

/-- The number that digits write behind a point. -/
def fraction : List Char → ℚ
  | [] => 0
  | c :: cs => ((c.toNat - '0'.toNat : Nat) + fraction cs) / 10

theorem ofDigitChars_eq (cs : List Char) (n : Nat) :
    Nat.ofDigitChars 10 cs n = n * 10 ^ cs.length + value cs := by
  induction cs generalizing n with
  | nil => simp [value]
  | cons c cs ih =>
    have h := ih (10 * n + (c.toNat - '0'.toNat))
    have h0 := ih (10 * 0 + (c.toNat - '0'.toNat))
    rw [value, Nat.ofDigitChars_cons, Nat.ofDigitChars_cons, h, h0, List.length_cons, Nat.pow_succ]
    ring

theorem value_append (ds fs : List Char) :
    value (ds ++ fs) = value ds * 10 ^ fs.length + value fs := by
  rw [value, Nat.ofDigitChars_append, ofDigitChars_eq, ← value]

theorem value_cons (c : Char) (cs : List Char) :
    value (c :: cs) = (c.toNat - '0'.toNat) * 10 ^ cs.length + value cs := by
  rw [value, Nat.ofDigitChars_cons, ofDigitChars_eq]
  simp

theorem value_replicate_zero (n : Nat) : value (List.replicate n '0') = 0 := by
  simp [value, Nat.ofDigitChars_replicate_zero]

theorem value_lt {cs : List Char} (h : Digits cs) : value cs < 10 ^ cs.length := by
  induction cs with
  | nil => simp [value]
  | cons c cs ih =>
    have hc : c.isDigit := h c (by simp)
    have hrest := ih h.tail
    have hdigit : c.toNat - '0'.toNat ≤ 9 := by
      simp only [Char.isDigit, Bool.and_eq_true, decide_eq_true_eq] at hc
      have h9 : c.toNat ≤ 57 := hc.2
      show c.toNat - 48 ≤ 9
      omega
    rw [value_cons, List.length_cons, Nat.pow_succ]
    have hle := Nat.mul_le_mul_right (10 ^ cs.length) hdigit
    omega

theorem fraction_eq (cs : List Char) : fraction cs = value cs / 10 ^ cs.length := by
  induction cs with
  | nil => simp [fraction, value]
  | cons c cs ih =>
    rw [fraction, ih, value_cons, List.length_cons]
    push_cast
    field_simp
    ring

theorem nat?_eq_some {cs : List Char} {n : Nat} :
    nat? cs = some n ↔ (cs ≠ [] ∧ Digits cs) ∧ value cs = n := by
  unfold nat? value Digits
  by_cases h : cs ≠ [] ∧ cs.all Char.isDigit
  · rw [if_pos h]
    have h' : cs ≠ [] ∧ ∀ c ∈ cs, c.isDigit := ⟨h.1, List.all_eq_true.mp h.2⟩
    simp only [Option.some.injEq]
    exact ⟨fun e => ⟨h', e⟩, fun e => e.2⟩
  · rw [if_neg h]
    have h' : ¬ (cs ≠ [] ∧ ∀ c ∈ cs, c.isDigit) := fun e =>
      h ⟨e.1, List.all_eq_true.mpr e.2⟩
    constructor
    · nofun
    · exact fun e => absurd e.1 h'

namespace Digits
variable {ds fs : List Char}

theorem append (hd : Digits ds) (hf : Digits fs) : Digits (ds ++ fs) := fun c hc =>
  (List.mem_append.mp hc).elim (hd c) (hf c)

theorem left (h : Digits (ds ++ fs)) : Digits ds := fun c hc => h c (List.mem_append_left _ hc)

theorem right (h : Digits (ds ++ fs)) : Digits fs := fun c hc => h c (List.mem_append_right _ hc)

/-- A character that is no digit stands nowhere among digits. -/
theorem not_mem (h : Digits ds) {c : Char} (hc : c.isDigit = false) : c ∉ ds := fun hmem => by
  have hd := h c hmem
  rw [hc] at hd
  cases hd

end Digits

/-- A text with a point is cut there. -/
theorem span_point {ds : List Char} (fs : List Char) (hd : '.' ∉ ds) :
    (ds ++ '.' :: fs).takeWhile (· ≠ '.') = ds ∧
      ((ds ++ '.' :: fs).dropWhile (· ≠ '.')).drop 1 = fs := by
  have hp : ∀ c ∈ ds, decide (c ≠ '.') = true := fun c hc =>
    decide_eq_true fun e => hd (e ▸ hc)
  constructor
  · rw [List.takeWhile_append_of_pos hp]
    simp
  · rw [List.dropWhile_append_of_pos hp]
    simp

/-- A text without a point is cut at its end. -/
theorem span_no_point {ds : List Char} (hd : '.' ∉ ds) :
    ds.takeWhile (· ≠ '.') = ds ∧ (ds.dropWhile (· ≠ '.')).drop 1 = [] := by
  have hp : ∀ c ∈ ds, decide (c ≠ '.') = true := fun c hc =>
    decide_eq_true fun e => hd (e ▸ hc)
  constructor
  · exact List.takeWhile_eq_self_iff.mpr hp
  · rw [List.dropWhile_eq_nil_iff.mpr hp]
    rfl

theorem point_cases (cs : List Char) :
    '.' ∉ cs ∨ ∃ ds fs, '.' ∉ ds ∧ cs = ds ++ '.' :: fs := by
  by_cases h : '.' ∈ cs
  · obtain ⟨ds, fs, e, hd⟩ := List.eq_append_cons_of_mem h
    exact Or.inr ⟨ds, fs, hd, e⟩
  · exact Or.inl h

end Numeral

open Numeral (Digits value fraction)

/-! ### Decimals -/

namespace Exact

/-- The number that a decimal is without its sign. -/
def magnitude (e : Exact) : ℚ := value e.before + fraction e.after

/-- A number with a sign. -/
def withSign (negative : Bool) (q : ℚ) : ℚ := if negative then -q else q

/-- **The rational number that a decimal is.** -/
def toRat (e : Exact) : ℚ := withSign e.negative e.magnitude

/-- **Digits with a point among them**, or before or after them, write a number. -/
inductive Unsigned : List Char → ℚ → Prop
  | whole {ds : List Char} (digits : Digits ds) (some : ds ≠ []) : Unsigned ds (value ds)
  | point {ds fs : List Char} (digits : Digits (ds ++ fs)) (some : ds ++ fs ≠ []) :
      Unsigned (ds ++ '.' :: fs) (value ds + fraction fs)

/-- **A decimal text writes a number.** -/
inductive Writes : List Char → ℚ → Prop
  | unsigned {cs : List Char} {q : ℚ} (h : Unsigned cs q) : Writes cs q
  | plus {cs : List Char} {q : ℚ} (h : Unsigned cs q) : Writes ('+' :: cs) q
  | minus {cs : List Char} {q : ℚ} (h : Unsigned cs q) : Writes ('-' :: cs) (-q)

/-- Digits are the zeros that lead them, and those without these zeros. -/
theorem append_dropZeros (ds : List Char) :
    ∃ n, ds = List.replicate n '0' ++ dropZeros ds := by
  have hzeros : ds.takeWhile (· = '0') =
      List.replicate (ds.takeWhile (· = '0')).length '0' :=
    List.eq_replicate_of_mem fun c hc => by simpa using List.mem_takeWhile_imp hc
  refine ⟨(ds.takeWhile (· = '0')).length, ?_⟩
  rw [← hzeros, dropZeros, List.takeWhile_append_dropWhile]

/-- Digits are those without the zeros that end them, and these zeros. -/
theorem dropEndZeros_append (ds : List Char) :
    ∃ n, ds = dropEndZeros ds ++ List.replicate n '0' := by
  obtain ⟨n, hn⟩ := append_dropZeros ds.reverse
  have hreverse := congrArg List.reverse hn
  rw [List.reverse_reverse, List.reverse_append, List.reverse_replicate] at hreverse
  exact ⟨n, hreverse⟩

theorem value_dropZeros (ds : List Char) : value (dropZeros ds) = value ds := by
  obtain ⟨n, hn⟩ := append_dropZeros ds
  conv_rhs => rw [hn]
  rw [Numeral.value_append, Numeral.value_replicate_zero, Nat.zero_mul, Nat.zero_add]

theorem fraction_dropEndZeros (ds : List Char) : fraction (dropEndZeros ds) = fraction ds := by
  obtain ⟨n, hn⟩ := dropEndZeros_append ds
  conv_rhs => rw [hn]
  rw [Numeral.fraction_eq, Numeral.fraction_eq, Numeral.value_append,
    Numeral.value_replicate_zero, List.length_append, List.length_replicate, pow_add]
  push_cast
  field_simp
  ring

/-- **The number of a decimal of any digits**: no zero that is dropped tells, nor does the sign of
zero. -/
theorem toRat_ofDigits (negative : Bool) {ds fs : List Char} (h : (ds ++ fs).all Char.isDigit) :
    (ofDigits negative ds fs h).toRat = withSign negative (value ds + fraction fs) := by
  have hmagnitude : (ofDigits negative ds fs h).magnitude = value ds + fraction fs := by
    unfold magnitude
    rw [← value_dropZeros ds, ← fraction_dropEndZeros fs]
    rfl
  unfold toRat
  rw [hmagnitude]
  by_cases hnil : dropZeros ds ++ dropEndZeros fs = []
  · -- all digits are zeros
    obtain ⟨hd, hf⟩ := List.append_eq_nil_iff.mp hnil
    have hzero : (value ds : ℚ) + fraction fs = 0 := by
      rw [← value_dropZeros ds, ← fraction_dropEndZeros fs, hd, hf]
      simp [value, fraction]
    rw [hzero]
    simp [withSign]
  · have hsign : (ofDigits negative ds fs h).negative = negative := by
      simp [ofDigits, hnil]
    rw [hsign]

theorem ofBody?_eq_some {negative : Bool} {cs ds fs : List Char} {e : Exact}
    (h : cs.takeWhile (· ≠ '.') = ds ∧ (cs.dropWhile (· ≠ '.')).drop 1 = fs) :
    ofBody? negative cs = some e ↔
      ds ++ fs ≠ [] ∧ ∃ hd : (ds ++ fs).all Char.isDigit, e = ofDigits negative ds fs hd := by
  obtain ⟨rfl, rfl⟩ := h
  unfold ofBody?
  rw [ne_eq, List.append_eq_nil_iff]
  dsimp only
  split
  · next hnil => exact iff_of_false nofun fun h => h.1 hnil
  · next hne =>
    split
    · next hd =>
      rw [Option.some.injEq]
      exact ⟨fun h => ⟨hne, hd, h.symm⟩, fun ⟨_, _, h⟩ => h.symm⟩
    · next hd => exact iff_of_false nofun fun ⟨_, hd', _⟩ => hd hd'

theorem all_isDigit {cs : List Char} : cs.all Char.isDigit ↔ Digits cs := List.all_eq_true

theorem ofBody?_of_unsigned {cs : List Char} {q : ℚ} (h : Unsigned cs q) (negative : Bool) :
    ∃ e, ofBody? negative cs = some e ∧ e.toRat = withSign negative q := by
  cases h with
  | whole hd hne =>
    have hspan := Numeral.span_no_point (hd.not_mem rfl)
    rw [← List.append_nil cs] at hne hd
    refine ⟨_, (ofBody?_eq_some hspan).mpr ⟨hne, all_isDigit.mpr hd, rfl⟩, ?_⟩
    rw [toRat_ofDigits, fraction, add_zero]
  | @point ds fs hd hne =>
    have hspan := Numeral.span_point fs (hd.left.not_mem rfl)
    exact ⟨_, (ofBody?_eq_some hspan).mpr ⟨hne, all_isDigit.mpr hd, rfl⟩, toRat_ofDigits _ _⟩

theorem unsigned_of_ofBody? {negative : Bool} {cs : List Char} {e : Exact}
    (h : ofBody? negative cs = some e) : ∃ q, Unsigned cs q ∧ e.toRat = withSign negative q := by
  rcases Numeral.point_cases cs with hp | ⟨ds, fs, hp, rfl⟩
  · obtain ⟨hne, hd, rfl⟩ := (ofBody?_eq_some (Numeral.span_no_point hp)).mp h
    have hdigits := all_isDigit.mp hd
    rw [List.append_nil] at hne hdigits
    refine ⟨_, Unsigned.whole hdigits hne, ?_⟩
    rw [toRat_ofDigits, fraction, add_zero]
  · obtain ⟨hne, hd, rfl⟩ := (ofBody?_eq_some (Numeral.span_point fs hp)).mp h
    exact ⟨_, Unsigned.point (all_isDigit.mp hd) hne, toRat_ofDigits _ _⟩

theorem Unsigned.head {cs : List Char} {q : ℚ} (h : Unsigned cs q) {c : Char}
    (hc : c.isDigit = false) (hp : c ≠ '.') : cs.head? ≠ some c := by
  intro e
  have hmem : c ∈ cs := List.mem_of_mem_head? e
  cases h with
  | whole hd _ => exact hd.not_mem hc hmem
  | point hd _ =>
    rcases List.mem_append.mp hmem with hm | hm
    · exact hd.left.not_mem hc hm
    · rcases List.mem_cons.mp hm with hm | hm
      · exact hp hm
      · exact hd.right.not_mem hc hm

/-- **A decimal text is read as the number that it writes.** -/
theorem ofText?_of_writes {cs : List Char} {q : ℚ} (h : Writes cs q) :
    ∃ e, ofText? cs = some e ∧ e.toRat = q := by
  cases h with
  | unsigned hu =>
    have h1 := hu.head (c := '-') rfl (by decide)
    have h2 := hu.head (c := '+') rfl (by decide)
    unfold ofText?
    split
    · exact absurd rfl h1
    · exact absurd rfl h2
    · exact ofBody?_of_unsigned hu false
  | plus hu => exact ofBody?_of_unsigned hu false
  | minus hu => exact ofBody?_of_unsigned hu true

/-- **A text that is read as a decimal writes it.** -/
theorem writes_of_ofText? {cs : List Char} {e : Exact} (h : ofText? cs = some e) :
    Writes cs e.toRat := by
  unfold ofText? at h
  split at h
  · obtain ⟨q, hq, he⟩ := unsigned_of_ofBody? h
    rw [he]
    exact Writes.minus hq
  · obtain ⟨q, hq, he⟩ := unsigned_of_ofBody? h
    rw [he]
    exact Writes.plus hq
  · obtain ⟨q, hq, he⟩ := unsigned_of_ofBody? h
    rw [he]
    exact Writes.unsigned hq

/-- The digits of a number write it. -/
theorem unsigned_digits (n : Nat) : Unsigned (Numeral.digits n) n := by
  have hvalue : value (Numeral.digits n) = n :=
    Nat.ofDigitChars_toDigits (by decide) (by decide)
  have h := Unsigned.whole (fun _ hc => Numeral.isDigit_of_mem_digits hc)
    (Numeral.digits_ne_nil n)
  rwa [hvalue] at h

/-- The digits of an integer and its sign write it. -/
theorem writes_paddedInt (z : Int) : Writes (Numeral.paddedInt 0 z) z := by
  rw [Numeral.paddedInt_zero]
  by_cases hz : z < 0
  · have hq : (z : ℚ) = -(z.natAbs : ℚ) := by
      conv_lhs => rw [show z = -(z.natAbs : Int) by omega]
      simp
    rw [if_pos hz, hq]
    exact Writes.minus (unsigned_digits _)
  · have hq : (z : ℚ) = (z.natAbs : ℚ) := by
      conv_lhs => rw [show z = (z.natAbs : Int) by omega]
      simp
    rw [if_neg hz, hq]
    exact Writes.unsigned (unsigned_digits _)

end Exact

/-! ### Times -/

namespace Duration

/-- The microseconds that up to six digits behind a point write. -/
def microsOf (fs : List Char) : Nat := value (fs ++ List.replicate (6 - fs.length) '0')

/-- **Hours, minutes and seconds** with colons between them write a number of seconds. -/
inductive Clock : List Char → Nat → Prop
  | mk {h m s : List Char} (digits : Digits h ∧ Digits m ∧ Digits s)
      (some : h ≠ [] ∧ m ≠ [] ∧ s ≠ []) (hours : value h < 2 ^ 63)
      (sexagesimal : value m ≤ 59 ∧ value s ≤ 59) :
      Clock (h ++ ':' :: (m ++ ':' :: s)) (value h * 3600 + value m * 60 + value s)

/-- **A time without its sign** writes a number of microseconds. -/
inductive Unsigned : List Char → Nat → Prop
  | whole {cs : List Char} {n : Nat} (clock : Clock cs n) : Unsigned cs (n * 1000000)
  | point {cs fs : List Char} {n : Nat} (clock : Clock cs n) (digits : Digits fs)
      (few : fs.length ≤ 6) : Unsigned (cs ++ '.' :: fs) (n * 1000000 + microsOf fs)

/-- **A time writes a number of microseconds.** -/
inductive Writes : List Char → Int → Prop
  | unsigned {cs : List Char} {n : Nat} (h : Unsigned cs n) : Writes cs n
  | minus {cs : List Char} {n : Nat} (h : Unsigned cs n) : Writes ('-' :: cs) (-n)

theorem field?_eq_some {cs : List Char} {n : Nat} :
    field? cs = some n ↔ ((cs ≠ [] ∧ Digits cs) ∧ value cs = n) ∧ n < 2 ^ 63 := by
  rw [← Numeral.nat?_eq_some]
  unfold field?
  cases hn : Numeral.nat? cs with
  | none => simp
  | some m =>
    simp only [Option.bind_eq_bind, Option.bind_some, Option.some.injEq]
    split
    · next hlt =>
      constructor
      · intro h
        cases h
        exact ⟨rfl, hlt⟩
      · exact fun h => congrArg some h.1
    · next hge =>
      constructor
      · nofun
      · rintro ⟨rfl, h⟩
        exact absurd h hge

theorem microsOf_eq (fs : List Char) : microsOf fs = value fs * 10 ^ (6 - fs.length) := by
  rw [microsOf, Numeral.value_append, List.length_replicate, Numeral.value_replicate_zero,
    Nat.add_zero]

theorem microsOf_nil : microsOf [] = 0 := rfl

theorem fraction?_eq_some {fs : List Char} {n : Nat} :
    fraction? fs = some n ↔ (Digits fs ∧ fs.length ≤ 6) ∧ microsOf fs = n := by
  unfold fraction?
  by_cases hnil : fs = []
  · subst hnil
    have hd : Digits [] := fun _ h => by cases h
    simp [hd, microsOf_nil]
  rw [if_neg hnil]
  by_cases hlen : fs.length ≤ 6
  · rw [if_pos hlen, Option.map_eq_some_iff]
    constructor
    · rintro ⟨m, hm, rfl⟩
      obtain ⟨⟨⟨-, hd⟩, rfl⟩, -⟩ := field?_eq_some.mp hm
      exact ⟨⟨hd, hlen⟩, microsOf_eq fs⟩
    · rintro ⟨⟨hd, -⟩, rfl⟩
      have hlt : value fs < 2 ^ 63 := by
        have h6 : (10 : Nat) ^ fs.length ≤ 10 ^ 6 := Nat.pow_le_pow_right (by decide) hlen
        have hv := Numeral.value_lt hd
        omega
      exact ⟨value fs, field?_eq_some.mpr ⟨⟨⟨hnil, hd⟩, rfl⟩, hlt⟩, (microsOf_eq fs).symm⟩
  · rw [if_neg hlen]
    constructor
    · nofun
    · exact fun h => absurd h.1.2 hlen

theorem intercalate_colons (h m s : List Char) :
    [':'].intercalate [h, m, s] = h ++ ':' :: (m ++ ':' :: s) := by
  simp [List.intercalate, List.intersperse]

/-- The fields of a clock are those of the text around its colons. -/
theorem splitOn_colons {h m s : List Char} (hh : ':' ∉ h) (hm : ':' ∉ m) (hs : ':' ∉ s) :
    (h ++ ':' :: (m ++ ':' :: s)).splitOn ':' = [h, m, s] := by
  rw [← intercalate_colons]
  refine List.splitOn_intercalate ':' ?_ (by simp)
  intro l hl
  simp only [List.mem_cons, List.not_mem_nil, or_false] at hl
  rcases hl with rfl | rfl | rfl <;> assumption

/-- The microseconds of a text that is cut at its point. -/
theorem magnitude?_eq {cs ds fs : List Char}
    (h : cs.takeWhile (· ≠ '.') = ds ∧ (cs.dropWhile (· ≠ '.')).drop 1 = fs) {n : Nat} :
    magnitude? cs = some n ↔
      ∃ k, Clock ds k ∧ (Digits fs ∧ fs.length ≤ 6) ∧ n = k * 1000000 + microsOf fs := by
  unfold magnitude?
  rw [h.1, h.2]
  constructor
  · intro e
    obtain ⟨micros, hf, e⟩ := Option.bind_eq_some_iff.mp e
    obtain ⟨hd, rfl⟩ := fraction?_eq_some.mp hf
    split at e
    · next hc mc sc hsplit =>
      obtain ⟨x, hx, e⟩ := Option.bind_eq_some_iff.mp e
      obtain ⟨y, hy, e⟩ := Option.bind_eq_some_iff.mp e
      obtain ⟨z, hz, e⟩ := Option.bind_eq_some_iff.mp e
      obtain ⟨⟨⟨hxne, hxd⟩, rfl⟩, hx63⟩ := field?_eq_some.mp hx
      obtain ⟨⟨⟨hyne, hyd⟩, rfl⟩, -⟩ := field?_eq_some.mp hy
      obtain ⟨⟨⟨hzne, hzd⟩, rfl⟩, -⟩ := field?_eq_some.mp hz
      have hds : ds = hc ++ ':' :: (mc ++ ':' :: sc) := by
        rw [← intercalate_colons, ← hsplit, List.intercalate_splitOn]
      split at e
      · next h59 =>
        refine ⟨_, ?_, hd, (Option.some.inj e).symm⟩
        rw [hds]
        exact Clock.mk ⟨hxd, hyd, hzd⟩ ⟨hxne, hyne, hzne⟩ hx63 h59
      · cases e
    · cases e
  · rintro ⟨k, hclock, hd, rfl⟩
    rw [fraction?_eq_some.mpr ⟨hd, rfl⟩]
    obtain ⟨⟨hx, hy, hz⟩, ⟨hxne, hyne, hzne⟩, h63, h59⟩ := hclock
    rw [splitOn_colons (hx.not_mem rfl) (hy.not_mem rfl) (hz.not_mem rfl)]
    have fx := field?_eq_some.mpr ⟨⟨⟨hxne, hx⟩, rfl⟩, h63⟩
    have fy := field?_eq_some.mpr ⟨⟨⟨hyne, hy⟩, rfl⟩, by omega⟩
    have fz := field?_eq_some.mpr ⟨⟨⟨hzne, hz⟩, rfl⟩, by omega⟩
    simp only [Option.bind_eq_bind, Option.bind_some, fx, fy, fz, h59, and_self, if_true]

theorem Clock.not_mem_point {cs : List Char} {n : Nat} (h : Clock cs n) : '.' ∉ cs := by
  obtain ⟨⟨hx, hy, hz⟩, -, -, -⟩ := h
  intro hmem
  simp only [List.mem_append, List.mem_cons] at hmem
  rcases hmem with hm | hm | hm | hm | hm
  · exact hx.not_mem rfl hm
  · cases hm
  · exact hy.not_mem rfl hm
  · cases hm
  · exact hz.not_mem rfl hm

/-- **The times without their sign** are those of the grammar. -/
theorem magnitude?_eq_some_iff {cs : List Char} {n : Nat} :
    magnitude? cs = some n ↔ Unsigned cs n := by
  constructor
  · intro e
    rcases Numeral.point_cases cs with hp | ⟨ds, fs, hp, rfl⟩
    · obtain ⟨k, hclock, -, rfl⟩ := (magnitude?_eq (Numeral.span_no_point hp)).mp e
      rw [microsOf_nil, Nat.add_zero]
      exact Unsigned.whole hclock
    · obtain ⟨k, hclock, ⟨hd, hlen⟩, rfl⟩ := (magnitude?_eq (Numeral.span_point fs hp)).mp e
      exact Unsigned.point hclock hd hlen
  · intro h
    cases h with
    | @whole _ k hclock =>
      have hnil : Digits [] := fun _ h => by cases h
      refine (magnitude?_eq (Numeral.span_no_point hclock.not_mem_point)).mpr
        ⟨k, hclock, ⟨hnil, by simp⟩, ?_⟩
      rw [microsOf_nil, Nat.add_zero]
    | @point ds fs k hclock hd hlen =>
      exact (magnitude?_eq (Numeral.span_point fs hclock.not_mem_point)).mpr
        ⟨_, hclock, ⟨hd, hlen⟩, rfl⟩

theorem Clock.head_ne {cs : List Char} {n : Nat} (h : Clock cs n) :
    ∃ c ds, cs = c :: ds ∧ c ≠ '-' := by
  obtain ⟨⟨hx, -, -⟩, ⟨hne, -, -⟩, -, -⟩ := h
  obtain ⟨c, ds, rfl⟩ := List.exists_cons_of_ne_nil hne
  refine ⟨c, _, rfl, ?_⟩
  rintro rfl
  exact hx.not_mem (c := '-') rfl (by simp)

theorem Unsigned.head_ne {cs : List Char} {n : Nat} (h : Unsigned cs n) :
    ∃ c ds, cs = c :: ds ∧ c ≠ '-' := by
  cases h with
  | whole hclock => exact hclock.head_ne
  | point hclock _ _ =>
    obtain ⟨c, ds, rfl, hc⟩ := hclock.head_ne
    exact ⟨c, _, rfl, hc⟩

theorem total?_minus (cs : List Char) :
    total? ('-' :: cs) = (magnitude? cs).map fun n : Nat => -(n : Int) := by
  cases h : magnitude? cs <;> simp [total?, h]

theorem total?_of_ne {cs : List Char} (h : ∀ ds, cs ≠ '-' :: ds) :
    total? cs = (magnitude? cs).map fun n : Nat => (n : Int) := by
  unfold total?
  split
  · exact absurd rfl (h _)
  · cases e : magnitude? cs <;> simp

/-- **A text is read as a time if it writes one**, and as the microseconds that it writes. -/
theorem total?_eq_some_iff {cs : List Char} {t : Int} : total? cs = some t ↔ Writes cs t := by
  constructor
  · intro e
    by_cases hminus : ∃ ds, cs = '-' :: ds
    · obtain ⟨ds, rfl⟩ := hminus
      rw [total?_minus] at e
      obtain ⟨n, hn, rfl⟩ := Option.map_eq_some_iff.mp e
      exact Writes.minus (magnitude?_eq_some_iff.mp hn)
    · rw [total?_of_ne fun ds hds => hminus ⟨ds, hds⟩] at e
      obtain ⟨n, hn, rfl⟩ := Option.map_eq_some_iff.mp e
      exact Writes.unsigned (magnitude?_eq_some_iff.mp hn)
  · intro h
    cases h with
    | minus hu => rw [total?_minus, magnitude?_eq_some_iff.mpr hu, Option.map_some]
    | unsigned hu =>
      obtain ⟨c, ds, rfl, hc⟩ := hu.head_ne
      rw [total?_of_ne fun ds' hds => hc (List.cons.inj hds).1, magnitude?_eq_some_iff.mpr hu,
        Option.map_some]

/-- **The microseconds of a time wrap around** to 64 bits. -/
theorem micros?_eq_wrap {cs : List Char} {t : Int} (h : Writes cs t) :
    micros? cs = some (wrap t) := by
  rw [micros?, total?_eq_some_iff.mpr h, Option.map_some]

/-- **Microseconds that fit 64 bits** are counted as the text writes them. -/
theorem micros?_of_writes {cs : List Char} {t : Int} (h : Writes cs t)
    (ht : t.natAbs < 0x8000000000000000) : micros? cs = some t := by
  rw [micros?_eq_wrap h, wrap, Int.bmod_eq_of_le (by omega) (by omega)]

end Duration
end Tablespace
