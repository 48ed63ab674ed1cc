import Tablespace.Proofs.KeyOrder
import Tablespace.Proofs.StorageOrder
import Tablespace.Value.Literal

/-! # How far values are in order

The way in which two values are compared is chosen by the pair. The comparison is reversed with the
pair and finds every value equal to itself, but it is no order of all values: a double may be equal
to two integers that differ, and a time whose length cannot be told is compared by its text with
times that are compared by their lengths with each other. Values that are compared in one way are in
order, and so are those of one column if the lengths of its times can be told.

* `Value.compare_swap`, `Value.compare_self`: the laws that hold of all values.
* `Value.Alike`: values that are compared in one way. `Value.orderedOn_of_alike`: they are in order.
* `Column.Yields`: the values of a column, read from bytes or from a literal.
  `Column.alike_of_yields`: they are compared in one way.
* `Value.compare_laws`: all of this. `Value.not_compare_trans`: and no more. -/

namespace Tablespace

namespace Value

/-! ### The ways to compare two values -/

/-- The order of what two values are read as, or another order if one of them is not read. -/
def compareBy {α : Type} (f : Value → Option α) (cmp : α → α → Ordering)
    (rest : Value → Value → Ordering) (a b : Value) : Ordering :=
  match f a, f b with
  | some x, some y => cmp x y
  | _, _ => rest a b

theorem compare_eq_compareBy (a b : Value) :
    a.compare b = compareBy timeText? compareTimes compareOther a b := by
  unfold compareBy
  cases ha : a.timeText? with
  | none => exact compare_eq_compareOther (Or.inl ha)
  | some s =>
    cases hb : b.timeText? with
    | none => exact compare_eq_compareOther (Or.inr hb)
    | some t =>
      cases a <;> cases ha
      cases b <;> cases hb
      rfl

theorem compareOther_eq_compareBy (a b : Value) :
    a.compareOther b =
      compareBy exactNumber? Exact.compare
        (compareBy double? (fun x y => Ord.compare (Double.order x) (Double.order y))
          (compareBy octets? compareOctets fun a b => Ord.compare a.rank b.rank)) a b := by
  unfold compareOther compareBy
  cases a.exactNumber? <;> cases b.exactNumber? <;> try rfl
  -- two of the cases above are left to the doubles, and of those in turn to the bytes
  all_goals
    cases a.double? <;> cases b.double? <;> try rfl
    all_goals cases a.octets? <;> cases b.octets? <;> rfl

theorem compareBy_swap {α : Type} {f : Value → Option α} {cmp : α → α → Ordering}
    {rest : Value → Value → Ordering} (hcmp : ∀ x y, cmp y x = (cmp x y).swap)
    (hrest : ∀ a b, rest b a = (rest a b).swap) (a b : Value) :
    compareBy f cmp rest b a = (compareBy f cmp rest a b).swap := by
  unfold compareBy
  cases f a with
  | none => cases f b <;> exact hrest a b
  | some x =>
    cases f b with
    | none => exact hrest a b
    | some y => exact hcmp x y

theorem exact_compare_swap (x y : Exact) : y.compare x = (x.compare y).swap := by
  rw [Exact.compare_eq, Exact.compare_eq]
  exact Std.OrientedOrd.eq_swap

theorem compareOctets_swap (l m : List UInt8) : compareOctets m l = (compareOctets l m).swap :=
  Std.OrientedOrd.eq_swap (α := List UInt8)

theorem compareTimes_swap (s t : String) : compareTimes t s = (compareTimes s t).swap := by
  unfold compareTimes
  cases Duration.micros? s.toList with
  | none => cases Duration.micros? t.toList <;> exact compareOctets_swap _ _
  | some m =>
    cases Duration.micros? t.toList with
    | none => exact compareOctets_swap _ _
    | some n => exact Std.OrientedOrd.eq_swap

/-- **The comparison is reversed with the pair**, whatever the two values. -/
theorem compare_swap (a b : Value) : b.compare a = (a.compare b).swap := by
  rw [compare_eq_compareBy, compare_eq_compareBy]
  refine compareBy_swap compareTimes_swap (fun a b => ?_) a b
  rw [compareOther_eq_compareBy, compareOther_eq_compareBy]
  refine compareBy_swap exact_compare_swap (compareBy_swap (fun _ _ => Std.OrientedOrd.eq_swap)
    (compareBy_swap compareOctets_swap fun _ _ => Std.OrientedOrd.eq_swap)) a b

/-- **Every value is equal to itself.** -/
theorem compare_self (a : Value) : a.compare a = .eq := by
  have h := compare_swap a a
  cases e : a.compare a <;> rw [e] at h <;> first | rfl | cases h

/-! ### Sorts -/

variable {a b : Value}

theorem rank_of_exactNumber? {x : Exact} (h : a.exactNumber? = some x) : a.rank = 1 := by
  cases a <;> first | rfl | cases h

theorem rank_of_double? {x : UInt64} (h : a.double? = some x) : a.rank = 1 := by
  cases a <;> first | rfl | cases h

theorem rank_of_octets? {l : List UInt8} (h : a.octets? = some l) : a.rank = 3 := by
  cases a <;> first | rfl | cases h

theorem rank_of_timeText? {s : String} (h : a.timeText? = some s) : a.rank = 2 := by
  cases a <;> first | rfl | cases h

/-- What is read from values of one sort only is not read from both of two sorts. -/
theorem compareBy_of_rank_ne {α : Type} {f : Value → Option α} {cmp : α → α → Ordering}
    {rest : Value → Value → Ordering} {r : Nat} (hf : ∀ v x, f v = some x → v.rank = r)
    (hne : a.rank ≠ b.rank) : compareBy f cmp rest a b = rest a b := by
  unfold compareBy
  cases ha : f a with
  | none => cases f b <;> rfl
  | some x =>
    cases hb : f b with
    | none => rfl
    | some y => exact absurd ((hf a x ha).trans (hf b y hb).symm) hne

/-- **Values of two sorts** are in the order of their sorts. -/
theorem compare_of_rank_ne (hne : a.rank ≠ b.rank) : a.compare b = Ord.compare a.rank b.rank := by
  rw [compare_eq_compareBy, compareBy_of_rank_ne (fun _ _ => rank_of_timeText?) hne,
    compareOther_eq_compareBy, compareBy_of_rank_ne (fun _ _ => rank_of_exactNumber?) hne,
    compareBy_of_rank_ne (fun _ _ => rank_of_double?) hne,
    compareBy_of_rank_ne (fun _ _ => rank_of_octets?) hne]

theorem rank_le_of_isLE (h : (a.compare b).isLE) : a.rank ≤ b.rank := by
  by_contra hlt
  rw [compare_of_rank_ne (by omega), compare_gt_iff_gt.mpr (by omega)] at h
  cases h

/-- **Values are in order if those of each sort are.** -/
theorem orderedOn_of_ranks {V : Value → Prop}
    (h : ∀ r, OrderedOn fun v => V v ∧ v.rank = r) : OrderedOn V where
  eq_swap := fun {a b} => compare_swap b.val a.val
  isLE_trans := by
    rintro ⟨a, ha⟩ ⟨b, hb⟩ ⟨c, hc⟩ hab hbc
    have hrab : a.rank ≤ b.rank := rank_le_of_isLE hab
    have hrbc : b.rank ≤ c.rank := rank_le_of_isLE hbc
    by_cases hrac : a.rank = c.rank
    · -- the sort in the middle is the one at both ends
      have hrba : b.rank = a.rank := by omega
      exact (h a.rank).isLE_trans (a := ⟨a, ha, rfl⟩) (b := ⟨b, hb, hrba⟩)
        (c := ⟨c, hc, hrac.symm⟩) hab hbc
    · show (a.compare c).isLE
      rw [compare_of_rank_ne hrac, compare_lt_iff_lt.mpr (by omega)]
      rfl

/-! ### Values that are compared in one way -/

/-- **Values that are compared in one way**: all of their numbers are exact or all are
floating-point numbers, and the lengths of all times can be told or of none. -/
structure Alike (V : Value → Prop) : Prop where
  numbers : (∀ v, V v → v.rank = 1 → v.exactNumber?.isSome) ∨
    ∀ v, V v → v.rank = 1 → v.exactNumber? = none ∧ v.double?.isSome
  times : (∀ s, V (.time s) → (Duration.micros? s.toList).isSome) ∨
    ∀ s, V (.time s) → Duration.micros? s.toList = none

/-- Values are in order if they compare as what they measure. -/
theorem orderedOn_of_measure {α : Type} [Ord α] [Std.TransOrd α] {V : Value → Prop}
    (f : Value → α) (h : ∀ a b, V a → V b → a.compare b = Ord.compare (f a) (f b)) :
    OrderedOn V where
  eq_swap := fun {a b} => compare_swap b.val a.val
  isLE_trans := by
    rintro ⟨a, ha⟩ ⟨b, hb⟩ ⟨c, hc⟩ hab hbc
    change (a.compare b).isLE at hab
    change (b.compare c).isLE at hbc
    show (a.compare c).isLE
    rw [h a b ha hb] at hab
    rw [h b c hb hc] at hbc
    rw [h a c ha hc]
    exact Std.TransOrd.isLE_trans hab hbc

theorem timeText?_of_rank (h : a.rank ≠ 2) : a.timeText? = none := by
  cases a <;> first | rfl | exact absurd rfl h

variable {V : Value → Prop}

theorem orderedOn_exact (h : ∀ v, V v → v.rank = 1 → v.exactNumber?.isSome) :
    OrderedOn fun v => V v ∧ v.rank = 1 := by
  refine orderedOn_of_measure (fun v => v.exactNumber?.elim 0 Exact.toRat) ?_
  rintro a b ⟨ha, hra⟩ ⟨hb, hrb⟩
  obtain ⟨x, hx⟩ := Option.isSome_iff_exists.mp (h a ha hra)
  obtain ⟨y, hy⟩ := Option.isSome_iff_exists.mp (h b hb hrb)
  rw [compare_eq_compareOther (Or.inl (timeText?_of_rank (by omega))), compareOther, hx, hy]
  exact Exact.compare_eq x y

theorem orderedOn_doubles
    (h : ∀ v, V v → v.rank = 1 → v.exactNumber? = none ∧ v.double?.isSome) :
    OrderedOn fun v => V v ∧ v.rank = 1 := by
  refine orderedOn_of_measure (fun v => v.double?.elim 0 Double.order) ?_
  rintro a b ⟨ha, hra⟩ ⟨hb, hrb⟩
  obtain ⟨hax, had⟩ := h a ha hra
  obtain ⟨x, hx⟩ := Option.isSome_iff_exists.mp had
  obtain ⟨y, hy⟩ := Option.isSome_iff_exists.mp (h b hb hrb).2
  rw [compare_eq_compareOther (Or.inl (timeText?_of_rank (by omega))), compareOther, hax, hx, hy]
  rfl

theorem exists_time_of_rank (h : a.rank = 2) : ∃ s, a = .time s := by
  cases a <;> first | exact ⟨_, rfl⟩ | cases h

theorem orderedOn_lengths (h : ∀ s, V (.time s) → (Duration.micros? s.toList).isSome) :
    OrderedOn fun v => V v ∧ v.rank = 2 := by
  refine orderedOn_of_measure
    (fun v => (v.timeText?.bind fun s => Duration.micros? s.toList).getD 0) ?_
  rintro a b ⟨ha, hra⟩ ⟨hb, hrb⟩
  obtain ⟨s, rfl⟩ := exists_time_of_rank hra
  obtain ⟨t, rfl⟩ := exists_time_of_rank hrb
  obtain ⟨m, hm⟩ := Option.isSome_iff_exists.mp (h s ha)
  obtain ⟨n, hn⟩ := Option.isSome_iff_exists.mp (h t hb)
  simp only [compare, compareTimes, timeText?, Option.bind_some, hm, hn, Option.getD_some]

theorem orderedOn_texts (h : ∀ s, V (.time s) → Duration.micros? s.toList = none) :
    OrderedOn fun v => V v ∧ v.rank = 2 := by
  refine orderedOn_of_measure (fun v => v.timeText?.elim [] Utf8.encode) ?_
  rintro a b ⟨ha, hra⟩ ⟨hb, hrb⟩
  obtain ⟨s, rfl⟩ := exists_time_of_rank hra
  obtain ⟨t, rfl⟩ := exists_time_of_rank hrb
  rw [compare, compareTimes, h s ha, h t hb]
  rfl

/-- **Values that are compared in one way are in order.** -/
theorem orderedOn_of_alike (h : Alike V) : OrderedOn V := by
  refine orderedOn_of_ranks fun r => ?_
  match r with
  | 0 =>
    refine orderedOn_of_measure (fun _ => 0) ?_
    rintro a b ⟨-, hra⟩ ⟨-, hrb⟩
    cases a <;> cases hra
    cases b <;> cases hrb
    rfl
  | 1 => exact h.numbers.elim orderedOn_exact orderedOn_doubles
  | 2 => exact h.times.elim orderedOn_lengths orderedOn_texts
  | r + 3 =>
    refine orderedOn_of_measure (fun v => v.octets?.getD []) ?_
    rintro a b ⟨-, hra⟩ ⟨-, hrb⟩
    cases a <;> simp only [rank] at hra <;> try omega
    all_goals
      cases b <;> simp only [rank] at hrb <;> first | omega | rfl

end Value

/-! ### The values of a column -/

namespace Packed

theorem digits_groupDigits (groups values : List Nat) :
    Numeral.Digits (groupDigits groups values) := by
  induction groups generalizing values with
  | nil => exact fun c hc => by cases hc
  | cons g gs ih =>
    cases values with
    | nil => exact fun c hc => by cases hc
    | cons v vs => exact (digits_padded g v).append (ih vs)

/-- **The text of a packed decimal writes a number**, whatever its bytes. -/
theorem exists_writes_of_decode? {precision scale : Nat} {bytes : List UInt8} {cs : List Char}
    (h : decode? precision scale bytes = some cs) : ∃ q, Exact.Writes cs q := by
  unfold decode? at h
  dsimp only at h
  split at h
  · cases h
  · obtain ⟨values, -, rfl⟩ := Option.map_eq_some_iff.mp h
    exact ⟨_, writes_render ((digits_groupDigits _ _).append (digits_groupDigits _ _)) _⟩

end Packed

namespace Value

/-- A value is no number, or a floating-point number, or an exact one. -/
def IsNumeric (floating : Bool) (v : Value) : Prop :=
  v.rank = 1 →
    if floating then v.exactNumber? = none ∧ v.double?.isSome else v.exactNumber?.isSome

/-- A value is no time, or one whose length can be told. -/
def IsTimed (v : Value) : Prop := ∀ s, v = .time s → (Duration.micros? s.toList).isSome

theorem isNumeric_of_rank_ne {floating : Bool} {v : Value} (h : v.rank ≠ 1) :
    v.IsNumeric floating := fun hr => absurd hr h

/-- What stands for a number is an exact one. -/
theorem isNumeric_of_denotes {v : Value} {q : ℚ} (h : v.Denotes (.number q)) :
    v.IsNumeric false := by
  intro _
  obtain ⟨e, he, -⟩ := exactNumber?_of_denotes h
  exact Option.isSome_of_eq_some he

theorem isNumeric_int (n : Int) : (int n).IsNumeric false := isNumeric_of_denotes (.int n)

theorem isNumeric_uint (n : Nat) : (uint n).IsNumeric false := isNumeric_of_denotes (.uint n)

theorem isNumeric_bytes (floating : Bool) (l : List UInt8) : (bytes l).IsNumeric floating :=
  isNumeric_of_rank_ne (by simp [rank])

theorem isNumeric_str (s : String) : (str s).IsNumeric false :=
  isNumeric_of_rank_ne (by simp [rank])

theorem isNumeric_ofInteger (size : Nat) (unsigned : Bool) (bytes : List UInt8) :
    (ofInteger size unsigned bytes).IsNumeric false := by
  unfold ofInteger
  split
  · exact isNumeric_bytes _ _
  · split
    · exact isNumeric_uint _
    · exact isNumeric_int _

theorem isNumeric_ofText {f : String → Value} (hf : ∀ s, (f s).rank ≠ 1) (bytes : List UInt8)
    (cs : Option (List Char)) : (ofText f bytes cs).IsNumeric false := by
  unfold ofText
  split
  · exact isNumeric_of_rank_ne (hf _)
  · exact isNumeric_bytes _ _

theorem isNumeric_decimal (precision scale : Nat) (bytes : List UInt8) :
    (ofText .decimal bytes (Packed.decode? precision scale bytes)).IsNumeric false := by
  cases h : Packed.decode? precision scale bytes with
  | none => exact isNumeric_bytes _ _
  | some cs =>
    obtain ⟨q, hq⟩ := Packed.exists_writes_of_decode? h
    refine isNumeric_of_denotes (Denotes.decimal (q := q) ?_)
    rwa [String.toList_ofList]

theorem isNumeric_ofYear (bytes : List UInt8) : (ofYear bytes).IsNumeric false := by
  unfold ofYear
  split
  · exact isNumeric_uint _
  · exact isNumeric_bytes _ _

theorem isNumeric_ofString (charset : Charset) (bytes : List UInt8) :
    (ofString charset bytes).IsNumeric false := by
  unfold ofString
  split
  · exact isNumeric_bytes _ _
  · exact isNumeric_str _
  · exact isNumeric_str _

theorem isNumeric_ofEnum (elements : List String) (bytes : List UInt8) :
    (ofEnum elements bytes).IsNumeric false := by
  unfold ofEnum
  split
  · split
    · exact isNumeric_str _
    · split
      · exact isNumeric_str _
      · exact isNumeric_uint _
  · exact isNumeric_bytes _ _

theorem isNumeric_ofSet (elements : List String) (bytes : List UInt8) :
    (ofSet elements bytes).IsNumeric false := isNumeric_str _

theorem isNumeric_ofBits (bytes : List UInt8) : (ofBits bytes).IsNumeric false := by
  unfold ofBits
  split
  · exact isNumeric_uint _
  · exact isNumeric_bytes _ _

theorem isNumeric_ofSingle (bytes : List UInt8) : (ofSingle bytes).IsNumeric true := by
  unfold ofSingle
  split
  · exact fun _ => ⟨rfl, rfl⟩
  · exact isNumeric_bytes _ _

theorem isNumeric_ofDouble (bytes : List UInt8) : (ofDouble bytes).IsNumeric true := by
  unfold ofDouble
  split
  · exact fun _ => ⟨rfl, rfl⟩
  · exact isNumeric_bytes _ _

end Value

namespace Column

open Value

/-- **The values of a column**: null, what any bytes are read as, and what any literal stands
for. -/
inductive Yields (c : Column) (offset : Int) : Value → Prop
  | null : Yields c offset .null
  | stored (bytes : List UInt8) : Yields c offset (c.decode offset bytes)
  | literal {text : String} {v : Value} (h : c.literal text = .ok v) : Yields c offset v

/-- The numbers of a column are floating-point numbers. -/
def isFloating (c : Column) : Bool :=
  match c.type with
  | .float | .double => true
  | _ => false

theorem isNumeric_decode (c : Column) (offset : Int) (bytes : List UInt8) :
    (c.decode offset bytes).IsNumeric c.isFloating := by
  unfold decode isFloating
  cases c.type with
  | tinyInt | smallInt | mediumInt | int | bigInt => exact isNumeric_ofInteger _ _ _
  | float => exact isNumeric_ofSingle bytes
  | double => exact isNumeric_ofDouble bytes
  | decimal p s => exact isNumeric_decimal p s bytes
  | date | dateTime | timestamp => exact isNumeric_ofText (fun _ => by simp [rank]) _ _
  | time => exact isNumeric_ofText (fun _ => by simp [rank]) _ _
  | year => exact isNumeric_ofYear bytes
  | char | varChar | tinyText | text | mediumText | longText => exact isNumeric_ofString _ _
  | enum elements => exact isNumeric_ofEnum elements bytes
  | set elements => exact isNumeric_ofSet elements bytes
  | bit => exact isNumeric_ofBits bytes
  | binary | varBinary | tinyBlob | blob | mediumBlob | longBlob | json =>
    exact isNumeric_bytes _ _

theorem isNumeric_ofBinaryLiteral (floating : Bool) {cs : List Char} {v : Value}
    (h : ofBinaryLiteral cs = .ok v) : v.IsNumeric floating := by
  unfold ofBinaryLiteral at h
  split at h
  · split at h <;> cases h <;> exact isNumeric_bytes _ _
  · cases h
    exact isNumeric_bytes _ _

theorem isNumeric_literal? {c : Column} {cs : List Char} {v : Value} (h : c.literal? cs = some v) :
    v.IsNumeric c.isFloating := by
  unfold literal? at h
  unfold isFloating
  cases htype : c.type <;> rw [htype] at h <;>
    simp only [ColumnType.isInteger, if_true, Bool.false_eq_true, if_false] at h
  case tinyInt | smallInt | mediumInt | int | bigInt =>
    split at h
    · obtain ⟨n, -, rfl⟩ := Option.map_eq_some_iff.mp h
      exact isNumeric_uint n
    · obtain ⟨n, -, rfl⟩ := Option.map_eq_some_iff.mp h
      exact isNumeric_int n
  case year | bit =>
    obtain ⟨n, -, rfl⟩ := Option.map_eq_some_iff.mp h
    exact isNumeric_uint n
  case float | double =>
    obtain ⟨w, -, rfl⟩ := Option.map_eq_some_iff.mp h
    exact fun _ => ⟨rfl, rfl⟩
  case decimal =>
    obtain ⟨e, he, rfl⟩ := Option.map_eq_some_iff.mp h
    refine isNumeric_of_denotes (.decimal (q := e.toRat) ?_)
    rw [String.toList_ofList]
    exact Exact.writes_of_ofText? he
  case time =>
    obtain ⟨m, -, rfl⟩ := Option.map_eq_some_iff.mp h
    exact isNumeric_of_rank_ne (by simp [rank])
  all_goals
    split at h <;> cases h
    · exact isNumeric_bytes _ _
    · exact isNumeric_of_rank_ne (by simp [rank])

theorem isNumeric_literal {c : Column} {text : String} {v : Value} (h : c.literal text = .ok v) :
    v.IsNumeric c.isFloating := by
  unfold literal at h
  split at h
  · cases h
    exact isNumeric_of_rank_ne (by simp [rank])
  · split at h
    · exact isNumeric_ofBinaryLiteral _ h
    · split at h <;> cases h
      next hv => exact isNumeric_literal? hv

/-- **The values of a column are compared in one way** if the lengths of its times can be told. -/
theorem alike_of_yields (c : Column) (offset : Int) :
    Alike fun v => c.Yields offset v ∧ v.IsTimed := by
  have hnumeric : ∀ v, c.Yields offset v → v.IsNumeric c.isFloating := by
    intro v hv
    cases hv with
    | null => exact isNumeric_of_rank_ne (by simp [rank])
    | stored bytes => exact isNumeric_decode c offset bytes
    | literal h => exact isNumeric_literal h
  refine ⟨?_, Or.inl fun s hs => hs.2 s rfl⟩
  cases hf : c.isFloating with
  | false => exact Or.inl fun v hv hr => by simpa [hf] using hnumeric v hv.1 hr
  | true => exact Or.inr fun v hv hr => by simpa [hf] using hnumeric v hv.1 hr

end Column

namespace Value

/-! ### The laws -/

/-- **How far values are in order**: the comparison of any two is reversed with them, and any value
is equal to itself; values that are compared in one way are in a total preorder, and so are the
values of a column, stored or written, where the lengths of its times can be told. -/
theorem compare_laws (V : Value → Prop) (c : Column) (offset : Int) :
    (∀ a : Value, a.compare a = .eq) ∧
      (∀ a b : Value, b.compare a = (a.compare b).swap) ∧
      (Alike V → OrderedOn V) ∧
      OrderedOn fun v => c.Yields offset v ∧ v.IsTimed :=
  ⟨compare_self, compare_swap, orderedOn_of_alike, orderedOn_of_alike (c.alike_of_yields offset)⟩

/-- **Values are in no order on the whole**: 10:60:00, 20:00:00 and 100:00:00 as a column stores
them go up by one step each and down by both, and a double is equal to two integers that differ. -/
theorem not_compare_trans :
    (let c := Column.ofType "t" (.time 0)
      let x := c.decode 0 [0x80, 0xAF, 0x00]
      let y := c.decode 0 [0x81, 0x40, 0x00]
      let z := c.decode 0 [0x86, 0x40, 0x00]
      x = .time "10:60:00" ∧ y = .time "20:00:00" ∧ z = .time "100:00:00" ∧
        x.compare y = .lt ∧ y.compare z = .lt ∧ x.compare z = .gt) ∧
      (int 9007199254740993).compare (double 0x4340000000000000) = .eq ∧
      (double 0x4340000000000000).compare (int 9007199254740992) = .eq ∧
      (int 9007199254740993).compare (int 9007199254740992) = .gt := by
  decide +kernel

end Value

end Tablespace
