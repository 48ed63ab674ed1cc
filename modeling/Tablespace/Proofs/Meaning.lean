import Tablespace.Proofs.DigitOrder
import Tablespace.Value.Order

/-! # What values mean

Nulls, integers, decimals, times, texts and bytes stand for nothing, a rational number, a number of
microseconds or bytes. Values of these sorts are in the order of what they stand for, whatever their
digits look like: the order of two integers is that of the digits which write them, and both are
that of rational numbers. A time stands for its microseconds if 64 bits can count them.

* `Meaning`, `Meaning.compare`: what a value stands for, and the order of it.
* `Value.Denotes`: a value stands for something. `Value.IsExact`: values that do.
* `Value.compare_of_isExact`: values are compared by what they stand for. -/

namespace Tablespace

/-- **What a value stands for.** -/
inductive Meaning
  | nothing
  | number (q : ℚ)
  | time (micros : Int)
  | octets (bytes : List UInt8)

namespace Meaning

/-- The place of a sort among the others. -/
def rank : Meaning → Nat
  | nothing => 0
  | number _ => 1
  | time _ => 2
  | octets _ => 3

/-- **The order of meanings**: of two sorts the earlier comes first, numbers and times are in their
own order, and bytes in that of a dictionary. -/
def compare : Meaning → Meaning → Ordering
  | number p, number q => Ord.compare p q
  | time m, time n => Ord.compare m n
  | octets a, octets b => Ord.compare a b
  | x, y => Ord.compare x.rank y.rank

end Meaning

namespace Value

/-- **A value stands for something.** A floating-point number stands for none of these. -/
inductive Denotes : Value → Meaning → Prop
  | null : Denotes .null .nothing
  | int (n : Int) : Denotes (.int n) (.number n)
  | uint (n : Nat) : Denotes (.uint n) (.number n)
  | decimal {s : String} {q : ℚ} (h : Exact.Writes s.toList q) : Denotes (.decimal s) (.number q)
  | time {s : String} {m : Int} (h : Duration.Writes s.toList m)
      (fits : m.natAbs < 0x8000000000000000) : Denotes (.time s) (.time m)
  | str (s : String) : Denotes (.str s) (.octets s.toUTF8.data.toList)
  | bytes (l : List UInt8) : Denotes (.bytes l) (.octets l)

/-- **Values that are exact**: any but floating-point numbers, and of decimals and times those whose
text can be read, as microseconds that 64 bits can count. -/
def IsExact : Value → Prop
  | .float _ | .double _ => False
  | .decimal s => (Exact.ofText? s.toList).isSome
  | .time s => (Duration.total? s.toList).any fun m => m.natAbs < 0x8000000000000000
  | _ => True

instance : DecidablePred IsExact := fun v => by
  cases v <;> unfold IsExact <;> infer_instance

theorem exists_denotes {v : Value} (h : v.IsExact) : ∃ x, v.Denotes x := by
  cases v with
  | null => exact ⟨_, .null⟩
  | int n => exact ⟨_, .int n⟩
  | uint n => exact ⟨_, .uint n⟩
  | float => exact h.elim
  | double => exact h.elim
  | decimal s =>
    obtain ⟨e, he⟩ := Option.isSome_iff_exists.mp h
    exact ⟨_, .decimal (Exact.writes_of_ofText? he)⟩
  | str s => exact ⟨_, .str s⟩
  | time s =>
    obtain ⟨m, hm, hfits⟩ := (Option.any_eq_true ..).mp h
    exact ⟨_, .time (Duration.total?_eq_some_iff.mp hm) (of_decide_eq_true hfits)⟩
  | bytes l => exact ⟨_, .bytes l⟩

theorem utf8_encode_eq (s : String) : Utf8.encode s = s.toUTF8.data.toList := by
  have h : s.toUTF8 = s.toList.utf8Encode := by
    rw [← String.toByteArray_ofList, String.ofList_toList]
    rfl
  rw [h]
  simp [List.utf8Encode, Utf8.encode]

/-! ### One sort -/

theorem rank_of_denotes {v : Value} {x : Meaning} (h : v.Denotes x) : v.rank = x.rank := by
  cases h <;> rfl

theorem exactNumber?_of_denotes {v : Value} {q : ℚ} (h : v.Denotes (.number q)) :
    ∃ e, v.exactNumber? = some e ∧ e.toRat = q := by
  cases h with
  | int n => exact Exact.ofText?_of_writes (Exact.writes_paddedInt n)
  | uint n => exact Exact.ofText?_of_writes (.unsigned (Exact.unsigned_digits n))
  | decimal hw => exact Exact.ofText?_of_writes hw

theorem octets?_of_denotes {v : Value} {l : List UInt8} (h : v.Denotes (.octets l)) :
    v.octets? = some l := by
  cases h with
  | str s => rw [octets?, utf8_encode_eq]
  | bytes => rfl

/-- What stands for no number is read as none. -/
theorem no_number_of_denotes {v : Value} {x : Meaning} (h : v.Denotes x) (hx : x.rank ≠ 1) :
    v.exactNumber? = none ∧ v.double? = none := by
  cases h with
  | int | uint | decimal => exact absurd rfl hx
  | null | time | str | bytes => exact ⟨rfl, rfl⟩

theorem no_octets_of_denotes {v : Value} {x : Meaning} (h : v.Denotes x) (hx : x.rank ≠ 3) :
    v.octets? = none := by
  cases h with
  | str | bytes => exact absurd rfl hx
  | null | int | uint | decimal | time => rfl

/-! ### Two values -/

variable {a b : Value}

/-- Numbers are compared by their digits as what they stand for. -/
theorem compareOther_numbers {p q : ℚ} (ha : a.Denotes (.number p)) (hb : b.Denotes (.number q)) :
    a.compareOther b = Ord.compare p q := by
  obtain ⟨x, hx, rfl⟩ := exactNumber?_of_denotes ha
  obtain ⟨y, hy, rfl⟩ := exactNumber?_of_denotes hb
  rw [compareOther, hx, hy]
  exact Exact.compare_eq x y

/-- The text of a time. -/
def timeText? : Value → Option String
  | .time s => some s
  | _ => none

/-- **Values that are not both times are compared as others are**: two integers, which are compared
as such, would be in the same order by their digits. -/
theorem compare_eq_compareOther (h : a.timeText? = none ∨ b.timeText? = none) :
    a.compare b = a.compareOther b := by
  have integers (m n : Int) : Ord.compare m n = Ord.compare (m : ℚ) (n : ℚ) := by
    rw [← cmp_eq_compare, ← cmp_eq_compare, Int.cast_strictMono.cmp_map_eq]
  have naturals (m n : Nat) : Ord.compare m n = Ord.compare (m : ℚ) (n : ℚ) := by
    rw [← cmp_eq_compare, ← cmp_eq_compare, Nat.strictMono_cast.cmp_map_eq]
  cases a with
  | null => cases b <;> rfl
  | int m =>
    cases b with
    | int n => exact (integers m n).trans (compareOther_numbers (.int m) (.int n)).symm
    | uint n =>
      rw [compareOther_numbers (.int m) (.uint n), ← Int.cast_natCast (R := ℚ) n]
      exact integers m n
    | _ => rfl
  | uint m =>
    cases b with
    | int n =>
      rw [compareOther_numbers (.uint m) (.int n), ← Int.cast_natCast (R := ℚ) m]
      exact integers m n
    | uint n => exact (naturals m n).trans (compareOther_numbers (.uint m) (.uint n)).symm
    | _ => rfl
  | time s =>
    cases b with
    | time t => rcases h with h | h <;> cases h
    | _ => rfl
  | _ => rfl

theorem timeText?_of_denotes {v : Value} {x : Meaning} (h : v.Denotes x) (hx : x.rank ≠ 2) :
    v.timeText? = none := by
  cases h with
  | time => exact absurd rfl hx
  | _ => rfl

theorem compare_numbers {p q : ℚ} (ha : a.Denotes (.number p)) (hb : b.Denotes (.number q)) :
    a.compare b = Ord.compare p q := by
  rw [compare_eq_compareOther (.inl (timeText?_of_denotes ha (by simp [Meaning.rank]))),
    compareOther_numbers ha hb]

theorem compare_times {m n : Int} (ha : a.Denotes (.time m)) (hb : b.Denotes (.time n)) :
    a.compare b = Ord.compare m n := by
  cases ha with
  | time hm hmfits =>
    cases hb with
    | time hn hnfits =>
      rw [compare, compareTimes, Duration.micros?_of_writes hm hmfits,
        Duration.micros?_of_writes hn hnfits]

theorem compare_octets {l m : List UInt8} (ha : a.Denotes (.octets l))
    (hb : b.Denotes (.octets m)) : a.compare b = Ord.compare l m := by
  have hother : a.compare b = a.compareOther b :=
    compare_eq_compareOther (.inl (timeText?_of_denotes ha (by simp [Meaning.rank])))
  obtain ⟨hax, had⟩ := no_number_of_denotes ha (by simp [Meaning.rank])
  rw [hother, compareOther, hax, had, octets?_of_denotes ha, octets?_of_denotes hb]
  rfl

/-- Values of two sorts are in the order of their sorts. -/
theorem compare_sorts {x y : Meaning} (ha : a.Denotes x) (hb : b.Denotes y)
    (hne : x.rank ≠ y.rank ∨ x.rank = 0) : a.compare b = Ord.compare x.rank y.rank := by
  have hnumber : (a.exactNumber? = none ∧ a.double? = none) ∨
      b.exactNumber? = none ∧ b.double? = none := by
    by_cases hx : x.rank = 1
    · exact Or.inr (no_number_of_denotes hb (by omega))
    · exact Or.inl (no_number_of_denotes ha hx)
  have hoctets : a.octets? = none ∨ b.octets? = none := by
    by_cases hx : x.rank = 3
    · exact Or.inr (no_octets_of_denotes hb (by omega))
    · exact Or.inl (no_octets_of_denotes ha hx)
  have htime : a.timeText? = none ∨ b.timeText? = none := by
    by_cases hx : x.rank = 2
    · exact Or.inr (timeText?_of_denotes hb (by omega))
    · exact Or.inl (timeText?_of_denotes ha hx)
  have hother : a.compare b = a.compareOther b := compare_eq_compareOther htime
  have hfall : a.compareOther b = Ord.compare a.rank b.rank := by
    unfold compareOther
    split
    · next hx hy => rcases hnumber with ⟨h, -⟩ | ⟨h, -⟩ <;> simp_all
    · split
      · next hx hy => rcases hnumber with ⟨-, h⟩ | ⟨-, h⟩ <;> simp_all
      · split
        · next hx hy => rcases hoctets with h | h <;> simp_all
        · rfl
  rw [hother, hfall, rank_of_denotes ha, rank_of_denotes hb]

theorem compare_of_denotes {x y : Meaning} (ha : a.Denotes x) (hb : b.Denotes y) :
    a.compare b = x.compare y := by
  cases x with
  | nothing => rw [compare_sorts ha hb (Or.inr rfl)]; cases y <;> rfl
  | number p =>
    cases y with
    | number q => exact compare_numbers ha hb
    | nothing | time | octets => exact compare_sorts ha hb (Or.inl (by simp [Meaning.rank]))
  | time m =>
    cases y with
    | time n => exact compare_times ha hb
    | nothing | number | octets => exact compare_sorts ha hb (Or.inl (by simp [Meaning.rank]))
  | octets l =>
    cases y with
    | octets m => exact compare_octets ha hb
    | nothing | number | time => exact compare_sorts ha hb (Or.inl (by simp [Meaning.rank]))

/-- **Exact values are in the order of what they stand for**: null before numbers, numbers before
times, times before texts and bytes; numbers as rational numbers, times as microseconds, and texts
and bytes as bytes. -/
theorem compare_of_isExact (ha : a.IsExact) (hb : b.IsExact) :
    (∃ x y, a.Denotes x ∧ b.Denotes y) ∧
      ∀ x y, a.Denotes x → b.Denotes y → a.compare b = x.compare y := by
  obtain ⟨x, hx⟩ := exists_denotes ha
  obtain ⟨y, hy⟩ := exists_denotes hb
  exact ⟨⟨x, y, hx, hy⟩, fun _ _ => compare_of_denotes⟩

/-- The largest integer of 64 bits and a decimal with zeros behind its point. -/
theorem compare_of_isExact_decimal :
    IsExact (.uint 18446744073709551615) ∧ IsExact (.decimal "18446744073709551615.000") ∧
      (∃ x y, Denotes (.uint 18446744073709551615) x ∧
        Denotes (.decimal "18446744073709551615.000") y) ∧
      ∀ x y, Denotes (.uint 18446744073709551615) x →
        Denotes (.decimal "18446744073709551615.000") y →
          compare (.uint 18446744073709551615) (.decimal "18446744073709551615.000") =
            x.compare y :=
  have h : IsExact (.decimal "18446744073709551615.000") := by decide +kernel
  ⟨trivial, h, compare_of_isExact trivial h⟩

example : compare (.uint 18446744073709551615) (.decimal "18446744073709551615.000") = .eq ∧
    compare (.decimal "-0.00") (.int 0) = .eq ∧
    compare (.time "-00:00:01") (.time "00:00:00.5") = .lt := by
  decide +kernel

end Value
end Tablespace
