import Mathlib.Data.Nat.Bitwise
import Mathlib.Tactic.Linarith
import Mathlib.Tactic.Ring
import Tablespace.Error
import Tablespace.Value.Decode

/-! # Guarded decoding of values

Values are decoded by members and slices of lists and by shifts of words, which `Column.decode`
takes to be in range. Here each of them is guarded: it fails where it is not in range. Whatever the
bytes, no guard fails, provided that a set has no more elements than a word has bits.

* `Guarded.member`, `Guarded.slice`, `Guarded.shiftLeft` and their like: the guards.
* `Guarded.decode`: the guarded decoder of a value. `Guarded.decode_eq`: it gives what
  `Column.decode` gives. -/

namespace Tablespace

/-! ### Guards -/

namespace Guarded
variable {α : Type}

/-- The member of a list at a place. -/
def member (l : List α) (i : Nat) : Except Error α :=
  match l[i]? with
  | some a => .ok a
  | none => .error (.stray i)

/-- A list with another member at a place. -/
def replace (l : List α) (i : Nat) (a : α) : Except Error (List α) :=
  if i < l.length then .ok (l.set i a) else .error (.stray i)

/-- The `n` members of a list from `start` on. -/
def slice (l : List α) (start n : Nat) : Except Error (List α) :=
  if start + n ≤ l.length then .ok ((l.drop start).take n) else .error (.stray start)

/-- The members of a list from `start` on. -/
def after (l : List α) (start : Nat) : Except Error (List α) :=
  if start ≤ l.length then .ok (l.drop start) else .error (.stray start)

/-- The big-endian number of four bytes from `start` on. -/
def word (l : List UInt8) (start : Nat) : Except Error Nat := bigEndian <$> slice l start 4

/-- A word of 64 bits, shifted to the left by fewer of them. -/
def shiftLeft (n by' : Nat) : Except Error Nat :=
  if by' < 64 then .ok (n * 2 ^ by' % 2 ^ 64) else .error (.stray by')

/-- A word of 64 bits in two's complement, shifted to the right by fewer of them. -/
def shiftRight (n by' : Nat) : Except Error Int :=
  if by' < 64 then .ok (Int.bmod n (2 ^ 64) / 2 ^ by') else .error (.stray by')

theorem member_eq {l : List α} {i : Nat} {a : α} (h : l[i]? = some a) : member l i = .ok a := by
  unfold member
  rw [h]

theorem replace_eq {l : List α} {i : Nat} (h : i < l.length) (a : α) :
    replace l i a = .ok (l.set i a) := if_pos h

theorem slice_eq {l : List α} {start n : Nat} (h : start + n ≤ l.length) :
    slice l start n = .ok ((l.drop start).take n) := if_pos h

theorem slice_zero {l : List α} {n : Nat} (h : n ≤ l.length) : slice l 0 n = .ok (l.take n) := by
  rw [slice_eq (by omega), List.drop_zero]

theorem after_eq {l : List α} {start : Nat} (h : start ≤ l.length) :
    after l start = .ok (l.drop start) := if_pos h

theorem shiftLeft_eq {n by' : Nat} (h : by' < 64) (hn : n * 2 ^ by' < 2 ^ 64) :
    shiftLeft n by' = .ok (n * 2 ^ by') := by
  unfold shiftLeft
  rw [if_pos h, Nat.mod_eq_of_lt hn]

theorem shiftLeft_one {i : Nat} (h : i < 64) : shiftLeft 1 i = .ok (2 ^ i) := by
  have hlt : 2 ^ i < 2 ^ 64 := Nat.pow_lt_pow_right (by omega) h
  rw [shiftLeft_eq h (by omega), Nat.one_mul]

/-! ### Integers -/

/-- An integer of `size` bytes. The sign of its flipped form is spread by a shift to the top of a
word and one back. -/
def ofInteger (size : Nat) (unsigned : Bool) (bytes : List UInt8) : Except Error Value :=
  if bytes.length ≠ size then .ok (.bytes bytes)
  else if unsigned then .ok (.uint (bigEndian bytes))
  else do
    let top ← shiftLeft 1 (8 * size - 1)
    let shifted ← shiftLeft (bigEndian bytes ^^^ top) (64 - 8 * size)
    return .int (← shiftRight shifted (64 - 8 * size))

/-- The highest bit of a number is flipped by adding its weight. -/
theorem xor_two_pow {n k : Nat} (h : n < 2 ^ (k + 1)) :
    n ^^^ 2 ^ k = (n + 2 ^ k) % 2 ^ (k + 1) := by
  have low : ∀ m < 2 ^ k, m ^^^ 2 ^ k = m + 2 ^ k := by
    intro m hm
    refine Nat.eq_of_testBit_eq fun i => ?_
    have hor : 2 ^ k + m = 2 ^ k ||| m := by simpa using Nat.two_pow_add_eq_or_of_lt hm 1
    rw [Nat.add_comm m, hor, Nat.testBit_xor, Nat.testBit_or]
    by_cases hi : i = k
    · subst hi
      rw [Nat.testBit_lt_two_pow hm, Nat.testBit_two_pow_self]
      rfl
    · rw [Nat.testBit_two_pow_of_ne (Ne.symm hi), Bool.xor_false, Bool.false_or]
  rw [Nat.pow_succ] at h ⊢
  by_cases hn : n < 2 ^ k
  · rw [low n hn, Nat.mod_eq_of_lt (by omega)]
  · obtain ⟨m, rfl⟩ : ∃ m, n = m + 2 ^ k := ⟨n - 2 ^ k, by omega⟩
    have hm : m < 2 ^ k := by omega
    have hadd : m + 2 ^ k + 2 ^ k = m + 2 ^ k * 2 := by omega
    rw [hadd, Nat.add_mod_right, Nat.mod_eq_of_lt (by omega), ← low m hm,
      Nat.xor_xor_cancel_right]

/-- A flipped number, spread over a word from its top and shifted back, is the number counted from
the middle of its range. -/
theorem bmod_ediv_two_pow {n k d : Nat} (h : n < 2 ^ (k + 1)) :
    Int.bmod (((n + 2 ^ k) % 2 ^ (k + 1) * 2 ^ d : Nat) : Int) (2 ^ (k + 1 + d)) / 2 ^ d =
      (n : Int) - 2 ^ k := by
  have hd : (0 : Int) < 2 ^ d := Int.pow_pos (by omega)
  have hk : (n : Int) < 2 ^ k * 2 := by
    rw [Nat.pow_succ] at h
    exact_mod_cast h
  have hbmod : Int.bmod (((n : Int) - 2 ^ k) * 2 ^ d) (2 ^ (k + 1 + d)) =
      ((n : Int) - 2 ^ k) * 2 ^ d := by
    apply Int.bmod_eq_of_le_mul_two
    · push_cast
      rw [pow_add, pow_succ]
      nlinarith
    · push_cast
      rw [pow_add, pow_succ]
      nlinarith
  have hword : Int.bmod (((n + 2 ^ k) % 2 ^ (k + 1) * 2 ^ d : Nat) : Int) (2 ^ (k + 1 + d)) =
      Int.bmod (((n : Int) - 2 ^ k) * 2 ^ d) (2 ^ (k + 1 + d)) := by
    rw [Nat.pow_succ] at h ⊢
    by_cases hn : n < 2 ^ k
    · have hcast : (((n + 2 ^ k) * 2 ^ d : Nat) : Int) =
          ((n : Int) - 2 ^ k) * 2 ^ d + ((2 ^ k * 2 * 2 ^ d : Nat) : Int) := by
        push_cast
        ring
      rw [Nat.mod_eq_of_lt (by omega), hcast, pow_add, pow_succ, Int.add_bmod_right]
    · have hsub : (n + 2 ^ k) % (2 ^ k * 2) = n - 2 ^ k := by
        rw [show n + 2 ^ k = n - 2 ^ k + 2 ^ k * 2 by omega, Nat.add_mod_right,
          Nat.mod_eq_of_lt (by omega)]
      rw [hsub, Nat.cast_mul, Nat.cast_sub (by omega)]
      push_cast
      rfl
  rw [hword, hbmod, Int.mul_ediv_cancel _ hd.ne']

theorem ofInteger_eq {size : Nat} (h : 1 ≤ size ∧ size ≤ 8) (unsigned : Bool)
    (bytes : List UInt8) :
    ofInteger size unsigned bytes = .ok (.ofInteger size unsigned bytes) := by
  unfold ofInteger Value.ofInteger
  split
  · rfl
  · next hl =>
    split
    · rfl
    · have hl : bytes.length = size := Classical.not_not.mp hl
      have hpow : Nat.pow 256 size = 2 ^ (8 * size - 1 + 1) := by
        rw [show 8 * size - 1 + 1 = 8 * size by omega, Nat.pow_mul]
        rfl
      have hlt : bigEndian bytes < 2 ^ (8 * size - 1 + 1) := by
        rw [← hpow, ← hl]
        exact bigEndian_lt bytes
      have hword : 8 * size - 1 + 1 + (64 - 8 * size) = 64 := by omega
      have hfit : (bigEndian bytes + 2 ^ (8 * size - 1)) % 2 ^ (8 * size - 1 + 1) *
          2 ^ (64 - 8 * size) < 2 ^ 64 := by
        have hm := Nat.mod_lt (bigEndian bytes + 2 ^ (8 * size - 1))
          (Nat.two_pow_pos (8 * size - 1 + 1))
        calc _ < 2 ^ (8 * size - 1 + 1) * 2 ^ (64 - 8 * size) :=
              Nat.mul_lt_mul_of_pos_right hm (Nat.two_pow_pos _)
          _ = 2 ^ 64 := by rw [← Nat.pow_add, hword]
      have hint := bmod_ediv_two_pow (d := 64 - 8 * size) hlt
      rw [hword] at hint
      rw [shiftLeft_one (by omega)]
      simp only [bind, Except.bind]
      rw [xor_two_pow hlt, shiftLeft_eq (by omega) hfit]
      simp only [shiftRight, if_pos (show 64 - 8 * size < 64 by omega), hint]
      rfl

/-! ### Dates and times -/

open Temporal

/-- The shown digits of a fraction of a second, behind their point. -/
def renderFraction (digits micros : Nat) : Except Error (List Char) :=
  if digits = 0 then .ok []
  else do
    let shown ← slice (Numeral.padded 6 micros) 0 (min digits 6)
    return '.' :: shown

/-- The digits of a fraction that stands in some bytes. -/
def fraction (digits : Nat) (bytes : List UInt8) : Except Error (List Char) :=
  if bytes = [] then .ok []
  else renderFraction digits (bigEndian bytes * fractionUnit bytes.length)

/-- A date and time. -/
def dateTime (digits : Nat) (bytes : List UInt8) : Except Error Value :=
  if bytes.length = 5 + fractionBytes digits then do
    let v := flipped (← slice bytes 0 5)
    let yearMonth := v / 0x400000 % 0x20000
    let part ← fraction digits (← after bytes 5)
    return .str (String.ofList
      (renderDate (yearMonth / 13 : Nat) (yearMonth % 13) (v / 0x20000 % 32) ++
        ' ' :: renderClock (v / 0x1000 % 32) (v / 64 % 64) (v % 64) ++ part))
  else .ok (.bytes bytes)

/-- A timestamp. -/
def timestamp (digits : Nat) (offset : Int) (bytes : List UInt8) : Except Error Value :=
  if bytes.length = 4 + fractionBytes digits then do
    let second := bigEndian (← slice bytes 0 4)
    if second = 0 then return .str (String.ofList zeroTimestamp)
    else
      let part ← fraction digits (← after bytes 4)
      return .str (String.ofList (renderSecond (second + offset) ++ part))
  else .ok (.bytes bytes)

/-- The packed form of a time with a fraction of `n` bytes. -/
def packed (n : Nat) (bytes : List UInt8) : Except Error Int :=
  if n = 3 then .ok ((bigEndian bytes : Int) - 0x800000000000)
  else do
    let second : Int := (bigEndian (← slice bytes 0 3) : Int) - 0x800000
    if n = 0 then return second * packedSecond
    else
      let part : Int := bigEndian (← after bytes 3)
      let modulus ← shiftLeft 1 (8 * n)
      let (second, part) :=
        if second < 0 ∧ part ≠ 0 then (second + 1, part - modulus) else (second, part)
      return second * packedSecond + part * fractionUnit n

/-- A time. -/
def time (digits : Nat) (bytes : List UInt8) : Except Error Value :=
  if bytes.length = 3 + fractionBytes digits then do
    let p ← packed (fractionBytes digits) bytes
    let clock := p.natAbs / packedSecond
    let part ← renderFraction digits (p.natAbs % packedSecond)
    return .time (String.ofList ((if p < 0 then ['-'] else []) ++
      renderClock (clock / 0x1000 % 0x400) (clock / 64 % 64) (clock % 64) ++ part))
  else .ok (.bytes bytes)

theorem length_padded_le (w n : Nat) : w ≤ (Numeral.padded w n).length := by
  unfold Numeral.padded
  rw [List.length_leftpad]
  exact Nat.le_max_left ..

theorem renderFraction_eq (digits micros : Nat) :
    renderFraction digits micros = .ok (Tablespace.renderFraction digits micros) := by
  unfold renderFraction Tablespace.renderFraction
  split
  · rfl
  · have hl := length_padded_le 6 micros
    rw [slice_zero (by omega)]
    rfl

theorem fraction_eq (digits : Nat) (bytes : List UInt8) :
    fraction digits bytes = .ok (Temporal.fraction digits bytes) := by
  unfold fraction Temporal.fraction
  split
  · rfl
  · exact renderFraction_eq ..

theorem dateTime_eq (digits : Nat) (bytes : List UInt8) :
    dateTime digits bytes = .ok (.ofText .str bytes (dateTime? digits bytes)) := by
  unfold dateTime dateTime?
  split
  · rw [slice_zero (by omega), after_eq (by omega)]
    simp only [bind, Except.bind, fraction_eq]
    rfl
  · rfl

theorem timestamp_eq (digits : Nat) (offset : Int) (bytes : List UInt8) :
    timestamp digits offset bytes = .ok (.ofText .str bytes (timestamp? digits offset bytes)) := by
  unfold timestamp timestamp?
  split
  · rw [slice_zero (by omega), after_eq (by omega)]
    simp only [bind, Except.bind, fraction_eq]
    split <;> rfl
  · rfl

theorem packed_eq {n : Nat} {bytes : List UInt8} (hn : n ≤ 3) (hl : bytes.length = 3 + n) :
    packed n bytes = .ok (Temporal.packed bytes) := by
  have hsub : bytes.length - 3 = n := by omega
  have hmod : shiftLeft 1 (8 * n) = .ok (Nat.pow 256 n) := by
    rw [shiftLeft_one (by omega), Nat.pow_mul]
    rfl
  unfold packed Temporal.packed
  simp only [hsub]
  split
  · rfl
  · rw [slice_zero (by omega), after_eq (by omega), hmod]
    simp only [bind, Except.bind, pure, Except.pure]
    split
    · next hz =>
      have hnil : bytes.drop 3 = [] := List.drop_eq_nil_of_le (by omega)
      simp [hnil, bigEndian_nil]
    · rfl

theorem fractionBytes_le (digits : Nat) : fractionBytes digits ≤ 3 := by
  unfold fractionBytes
  split <;> omega

theorem time_eq (digits : Nat) (bytes : List UInt8) :
    time digits bytes = .ok (.ofText .time bytes (time? digits bytes)) := by
  unfold time time?
  split
  · next hl =>
    rw [packed_eq (fractionBytes_le digits) hl]
    simp only [bind, Except.bind, renderFraction_eq]
    rfl
  · rfl

/-! ### Decimals -/

open Packed

/-- The bytes of a decimal without their sign, and whether it was negative. -/
def unsign (bytes : List UInt8) : Except Error (Bool × List UInt8) := do
  let first ← member bytes 0
  let negative := decide (first &&& 0x80 = 0)
  let bytes := if negative then bytes.map (· ^^^ 0xFF) else bytes
  let first ← member bytes 0
  return (negative, ← replace bytes 0 (first &&& 0x7F))

/-- The numbers of groups, one after the other from a place on. -/
def readGroups (bytes : List UInt8) : (start : Nat) → List Nat → Except Error (List Nat)
  | _, [] => .ok []
  | start, g :: gs => do
    let group ← slice bytes start (groupBytes g)
    return bigEndian group :: (← readGroups bytes (start + groupBytes g) gs)

/-- A decimal. -/
def decimal (precision scale : Nat) (bytes : List UInt8) : Except Error Value :=
  let size := decimalBytes precision scale
  if size = 0 ∨ bytes.length ≠ size then .ok (.bytes bytes)
  else do
    let whole := wholeGroups (precision - scale)
    let (negative, bytes) ← unsign bytes
    let values ← readGroups bytes 0 (whole ++ fractionGroups scale)
    return .decimal (String.ofList (render negative (groupDigits whole (values.take whole.length))
      (groupDigits (fractionGroups scale) (values.drop whole.length))))

theorem groupsBytes_append (gs hs : List Nat) :
    groupsBytes (gs ++ hs) = groupsBytes gs + groupsBytes hs := by
  induction gs with
  | nil => simp [groupsBytes]
  | cons g gs ih =>
    rw [List.cons_append, groupsBytes, groupsBytes, ih]
    omega

theorem readGroups_eq {gs : List Nat} {bytes : List UInt8} {start : Nat}
    (h : start + groupsBytes gs = bytes.length) :
    ∃ l, readGroups bytes start gs = .ok l ∧ readGroups? gs (bytes.drop start) = some l := by
  induction gs generalizing start with
  | nil =>
    rw [groupsBytes, Nat.add_zero] at h
    refine ⟨[], rfl, ?_⟩
    rw [List.drop_eq_nil_of_le h.ge]
    rfl
  | cons g gs ih =>
    rw [groupsBytes] at h
    have hrest : start + groupBytes g + groupsBytes gs = bytes.length := by omega
    obtain ⟨l, hl, hl'⟩ := ih hrest
    refine ⟨bigEndian ((bytes.drop start).take (groupBytes g)) :: l, ?_, ?_⟩
    · rw [readGroups, slice_eq (by omega), hl]
      rfl
    · rw [readGroups?, if_pos (by rw [List.length_drop]; omega), List.drop_drop, hl']
      rfl

/-- Groups that are read fill their bytes. -/
theorem length_of_readGroups? {gs : List Nat} {bytes : List UInt8} {l : List Nat}
    (h : readGroups? gs bytes = some l) : bytes.length = groupsBytes gs := by
  induction gs generalizing bytes l with
  | nil =>
    cases bytes with
    | nil => rfl
    | cons => cases h
  | cons g gs ih =>
    rw [readGroups?] at h
    split at h
    · next hg =>
      obtain ⟨l', hl, -⟩ := Option.map_eq_some_iff.mp h
      have := ih hl
      rw [List.length_drop] at this
      rw [groupsBytes]
      omega
    · cases h

theorem groupBytes_pos {g : Nat} (h : 0 < g) : 0 < groupBytes g := by
  unfold groupBytes
  split <;> omega

/-- No group of a decimal is empty. -/
theorem pos_of_mem_groups {d g : Nat} (h : g ∈ wholeGroups d ∨ g ∈ fractionGroups d) : 0 < g := by
  unfold wholeGroups fractionGroups at h
  simp only [List.mem_append, List.mem_replicate] at h
  split at h <;> simp at h <;> omega

theorem groupsBytes_eq_zero {gs : List Nat} (hpos : ∀ g ∈ gs, 0 < g) :
    groupsBytes gs = 0 ↔ gs = [] := by
  cases gs with
  | nil => simp [groupsBytes]
  | cons g gs =>
    have := groupBytes_pos (hpos g List.mem_cons_self)
    simp only [groupsBytes, reduceCtorEq, iff_false]
    omega

/-- The sign bit of a byte, and the byte without it, complemented if it was negative. -/
theorem unsign_byte (b : UInt8) : (b &&& 0x80 = 0 ↔ b < 0x80) ∧
    (b < 0x80 → (b ^^^ 0xFF) &&& 0x7F = b ^^^ 0x7F) ∧
    (¬ b < 0x80 → b &&& 0x7F = b ^^^ 0x80) :=
  (by decide +kernel : ∀ n : Fin 256, (UInt8.ofFin n &&& 0x80 = 0 ↔ UInt8.ofFin n < 0x80) ∧
    (UInt8.ofFin n < 0x80 → (UInt8.ofFin n ^^^ 0xFF) &&& 0x7F = UInt8.ofFin n ^^^ 0x7F) ∧
    (¬ UInt8.ofFin n < 0x80 → UInt8.ofFin n &&& 0x7F = UInt8.ofFin n ^^^ 0x80)) b.toFin

theorem unsign_eq {bytes : List UInt8} (h : bytes ≠ []) :
    unsign bytes = .ok (Packed.unsign bytes) := by
  obtain ⟨b, bs, rfl⟩ := List.exists_cons_of_ne_nil h
  obtain ⟨hsign, hneg, hpos⟩ := unsign_byte b
  have first : ∀ (c : UInt8) cs, member (c :: cs) 0 = .ok c := fun _ _ => rfl
  have front : ∀ (c d : UInt8) cs, replace (c :: cs) 0 d = .ok (d :: cs) := fun _ _ _ => rfl
  unfold unsign Packed.unsign
  rw [first]
  by_cases hb : b < 0x80
  · simp only [bind, Except.bind, hsign, hb, decide_true, if_true, List.map_cons, first, front,
      hneg hb]
    rfl
  · simp only [bind, Except.bind, hsign, hb, decide_false, Bool.false_eq_true, if_false, first,
      front, hpos hb]
    rfl

theorem length_unsign (bytes : List UInt8) : (Packed.unsign bytes).2.length = bytes.length := by
  unfold Packed.unsign
  split
  · rfl
  · split <;> simp

theorem decimal_eq (precision scale : Nat) (bytes : List UInt8) :
    decimal precision scale bytes =
      .ok (.ofText .decimal bytes (decode? precision scale bytes)) := by
  have hsize : decimalBytes precision scale =
      groupsBytes (wholeGroups (precision - scale) ++ fractionGroups scale) :=
    (groupsBytes_append ..).symm
  have hzero : decimalBytes precision scale = 0 ↔
      wholeGroups (precision - scale) ++ fractionGroups scale = [] := by
    rw [hsize]
    refine groupsBytes_eq_zero fun g hg => ?_
    rcases List.mem_append.mp hg with hg | hg
    · exact pos_of_mem_groups (Or.inl hg)
    · exact pos_of_mem_groups (Or.inr hg)
  have hlen := length_unsign bytes
  unfold decimal decode?
  simp only
  split
  · next h =>
    rcases h with h | h
    · rw [if_pos (hzero.mp h)]
      rfl
    · split
      · rfl
      · have hnone : readGroups? (wholeGroups (precision - scale) ++ fractionGroups scale)
            (Packed.unsign bytes).2 = none := by
          refine Option.eq_none_iff_forall_ne_some.mpr fun l hl => h ?_
          rw [hsize, ← length_of_readGroups? hl, hlen]
        rw [hnone]
        rfl
  · next h =>
    have hfit : bytes.length = decimalBytes precision scale :=
      Classical.not_not.mp fun hne => h (Or.inr hne)
    have hne : bytes ≠ [] := by
      rintro rfl
      exact h (Or.inl hfit.symm)
    have hgroups : 0 + groupsBytes (wholeGroups (precision - scale) ++ fractionGroups scale) =
        (Packed.unsign bytes).2.length := by omega
    obtain ⟨l, hl, hl'⟩ := readGroups_eq hgroups
    rw [List.drop_zero] at hl'
    rw [if_neg fun he => h (Or.inl (hzero.mpr he)), unsign_eq hne, hl']
    simp only [bind, Except.bind, hl]
    rfl

/-! ### Texts and elements -/

/-- Bytes without the spaces at their end. -/
def trimEnd (bytes : List UInt8) : Except Error (List UInt8) :=
  slice bytes 0 (bytes.length - (bytes.reverse.takeWhile (· = 0x20)).length)

/-- The element of a number, counted from 1. -/
def ofEnum (elements : List String) (bytes : List UInt8) : Except Error Value :=
  if bytes.length = 1 ∨ bytes.length = 2 then
    let n := bigEndian bytes
    if n = 0 then .ok (.str "")
    else if n ≤ elements.length then .str <$> member elements (n - 1)
    else .ok (.uint n)
  else .ok (.bytes bytes)

/-- The elements whose bits are set in a mask. -/
def chosen (mask : Nat) : List (String × Nat) → Except Error (List String)
  | [] => .ok []
  | (e, i) :: rest => do
    let bit ← shiftLeft 1 i
    let later ← chosen mask rest
    return if mask &&& bit ≠ 0 then e :: later else later

/-- The elements of a mask. -/
def ofSet (elements : List String) (bytes : List UInt8) : Except Error Value := do
  let l ← chosen (bigEndian bytes % 0x10000000000000000) elements.zipIdx
  return .str (",".intercalate l)

theorem trimEnd_eq (bytes : List UInt8) :
    trimEnd bytes = .ok (Text.dropEndWhile (· = 0x20) bytes) := by
  have hdrop : bytes.reverse.drop (bytes.reverse.takeWhile (· = 0x20)).length =
      bytes.reverse.dropWhile (· = 0x20) := by
    rw [List.dropWhile_eq_drop_findIdx_not, List.takeWhile_eq_take_findIdx_not, List.length_take,
      Nat.min_eq_left List.findIdx_le_length]
  unfold trimEnd Text.dropEndWhile
  rw [slice_zero (by omega), ← hdrop, List.reverse_drop, List.reverse_reverse, List.length_reverse]

theorem ofEnum_eq (elements : List String) (bytes : List UInt8) :
    ofEnum elements bytes = .ok (.ofEnum elements bytes) := by
  unfold ofEnum Value.ofEnum
  split
  · cases hn : bigEndian bytes with
    | zero => rfl
    | succ n =>
      simp only [Nat.add_one_sub_one]
      rw [if_neg (by omega)]
      split
      · next hle =>
        have he := List.getElem?_eq_getElem (l := elements) (i := n) (by omega)
        rw [member_eq he, he]
        rfl
      · next hgt =>
        rw [List.getElem?_eq_none (by omega)]
  · rfl

theorem chosen_eq {mask : Nat} {l : List (String × Nat)} (h : ∀ e ∈ l, e.2 < 64) :
    chosen mask l = .ok ((l.filter fun e => mask.testBit e.2).map Prod.fst) := by
  induction l with
  | nil => rfl
  | cons e l ih =>
    have hbit : (mask &&& 2 ^ e.2 ≠ 0) ↔ mask.testBit e.2 = true := by
      rw [Nat.and_two_pow]
      cases mask.testBit e.2 <;> simp
    have hl : ∀ e' ∈ l, e'.2 < 64 := fun e' he' => h e' (List.mem_cons_of_mem _ he')
    rw [chosen, shiftLeft_one (h e List.mem_cons_self), ih hl]
    simp only [bind, Except.bind, pure, Except.pure, hbit, List.filter_cons]
    split <;> rfl

theorem ofSet_eq {elements : List String} (h : elements.length ≤ 64) (bytes : List UInt8) :
    ofSet elements bytes = .ok (.ofSet elements bytes) := by
  unfold ofSet
  rw [Value.ofSet_of_length_le h, chosen_eq]
  · rfl
  · intro e he
    have hlt := List.snd_lt_of_mem_zipIdx he
    omega

/-! ### Values -/

/-- **The value of the bytes of a field.** -/
def decode (c : Column) (offset : Int) (bytes : List UInt8) : Except Error Value :=
  match c.type with
  | .tinyInt => ofInteger 1 c.unsigned bytes
  | .smallInt => ofInteger 2 c.unsigned bytes
  | .mediumInt => ofInteger 3 c.unsigned bytes
  | .int => ofInteger 4 c.unsigned bytes
  | .bigInt => ofInteger 8 c.unsigned bytes
  | .decimal p s => decimal p s bytes
  | .dateTime n => dateTime n bytes
  | .timestamp n => timestamp n offset bytes
  | .time n => time n bytes
  | .char _ => .ofString c.charset <$> trimEnd bytes
  | .enum elements => ofEnum elements bytes
  | .set elements => ofSet elements bytes
  | _ => .ok (c.decode offset bytes)

/-- **No guard of a value fails**, if a set has no more elements than a word has bits. -/
theorem decode_eq {c : Column} (h : ∀ elements, c.type = .set elements → elements.length ≤ 64)
    (offset : Int) (bytes : List UInt8) :
    decode c offset bytes = .ok (c.decode offset bytes) := by
  unfold decode Column.decode
  cases ht : c.type with
  | tinyInt | smallInt | mediumInt | int | bigInt => exact ofInteger_eq (by omega) _ _
  | decimal p s => exact decimal_eq ..
  | dateTime n => exact dateTime_eq ..
  | timestamp n => exact timestamp_eq ..
  | time n => exact time_eq ..
  | char n =>
    simp only [trimEnd_eq]
    rfl
  | enum elements => exact ofEnum_eq ..
  | set elements => exact ofSet_eq (h elements ht) bytes
  | _ => rfl

end Guarded
end Tablespace
