import Tablespace.Proofs.DecodedKinds
import Tablespace.Proofs.TimeOrder
import Tablespace.Proofs.ValueOrder

/-! # Printed values as literals

What is printed for a value can be typed in again. Integers, decimals, dates and times are printed
as digits with marks among them, and bytes as hexadecimal digits behind their marker. Each of these
texts is read as a literal by the same column, and the literal is equal to the value.

* `Text.IsNumeral`: digits with marks among them, which no reader takes for null.
* `Column.ReadsBack`: what is printed for a value is a literal of an equal one.
* `Column.Holds`: the bytes that a column may hold.
* `Column.literal_of_printed`: the value of such bytes is read back. -/

namespace Tablespace

/-! ### Texts of digits -/

namespace Text

/-- **Digits with marks among them.** -/
structure IsNumeral (cs : List Char) : Prop where
  marks : ∀ c ∈ cs, c.isDigit = true ∨ c ∈ ['+', '-', '.', ':']
  digit : ∃ c ∈ cs, c.isDigit = true

theorem IsNumeral.bare {cs : List Char} (h : IsNumeral cs) : Bare cs := by
  refine .of_forall fun c hc => ?_
  rcases h.marks c hc with hd | hm
  · exact isBlank_of_isDigit hd
  · simp only [List.mem_cons, List.not_mem_nil, or_false] at hm
    rcases hm with rfl | rfl | rfl | rfl <;> rfl

/-- A text with a digit is not the word for null. -/
theorem lower_ne_null {cs : List Char} (h : ∃ c ∈ cs, c.isDigit = true) :
    lower cs ≠ "null".toList := by
  obtain ⟨c, hc, hd⟩ := h
  intro he
  have hmem : c.toLower ∈ lower cs := List.mem_map_of_mem hc
  rw [he, toLower_of_isDigit hd] at hmem
  have hletters : "null".toList.all (fun d => !d.isDigit) = true := by decide
  simpa [hd] using List.all_eq_true.mp hletters c hmem

end Text

open Text (IsNumeral)
open Numeral (Digits digits)

theorem Numeral.Digits.exists_digit {ds : List Char} (h : Digits ds) (hne : ds ≠ []) :
    ∃ c ∈ ds, c.isDigit = true := by
  obtain ⟨c, hc⟩ := List.exists_mem_of_ne_nil ds hne
  exact ⟨c, hc, h c hc⟩

theorem Text.IsNumeral.cons {m : Char} (hm : m ∈ ['+', '-', '.', ':']) {cs : List Char}
    (h : IsNumeral cs) : IsNumeral (m :: cs) := by
  obtain ⟨c, hc, hd⟩ := h.digit
  exact ⟨List.forall_mem_cons.mpr ⟨.inr hm, h.marks⟩, c, List.mem_cons_of_mem _ hc, hd⟩

namespace Exact
variable {cs : List Char} {q : ℚ}

theorem Unsigned.isNumeral (h : Unsigned cs q) : IsNumeral cs := by
  cases h with
  | whole hd hne => exact ⟨fun c hc => .inl (hd c hc), hd.exists_digit hne⟩
  | @point ds fs hd hne =>
    obtain ⟨c, hc, hdigit⟩ := hd.exists_digit hne
    refine ⟨?_, c, ?_, hdigit⟩
    · simp only [List.forall_mem_append, List.forall_mem_cons]
      exact ⟨fun c hc => .inl (hd.left c hc), .inr (by simp), fun c hc => .inl (hd.right c hc)⟩
    · simp only [List.mem_append, List.mem_cons] at hc ⊢
      exact hc.imp_right .inr

/-- **The text of a decimal** is made of digits and marks. -/
theorem Writes.isNumeral (h : Writes cs q) : IsNumeral cs := by
  cases h with
  | unsigned hu => exact hu.isNumeral
  | plus hu => exact hu.isNumeral.cons (by simp)
  | minus hu => exact hu.isNumeral.cons (by simp)

end Exact

namespace Duration
variable {cs : List Char} {n : Nat}

theorem Clock.isNumeral (h : Clock cs n) : IsNumeral cs := by
  obtain ⟨⟨hh, hm, hs⟩, ⟨hne, -, -⟩, -, -⟩ := h
  obtain ⟨c, hc, hdigit⟩ := hh.exists_digit hne
  refine ⟨?_, c, List.mem_append_left _ hc, hdigit⟩
  simp only [List.forall_mem_append, List.forall_mem_cons]
  exact ⟨fun c hc => .inl (hh c hc), .inr (by simp), fun c hc => .inl (hm c hc), .inr (by simp),
    fun c hc => .inl (hs c hc)⟩

theorem Unsigned.isNumeral (h : Unsigned cs n) : IsNumeral cs := by
  cases h with
  | whole hclock => exact hclock.isNumeral
  | point hclock hd _ =>
    obtain ⟨hmarks, c, hc, hdigit⟩ := hclock.isNumeral
    refine ⟨?_, c, List.mem_append_left _ hc, hdigit⟩
    simp only [List.forall_mem_append, List.forall_mem_cons]
    exact ⟨hmarks, .inr (by simp), fun c hc => .inl (hd c hc)⟩

/-- **The text of a time** is made of digits and marks. -/
theorem Writes.isNumeral {t : Int} (h : Writes cs t) : IsNumeral cs := by
  cases h with
  | unsigned hu => exact hu.isNumeral
  | minus hu => exact hu.isNumeral.cons (by simp)

end Duration

/-- The text of an integer is that of a decimal. -/
theorem Numeral.isNumeral_paddedInt (z : Int) : IsNumeral (paddedInt 0 z) :=
  (Exact.writes_paddedInt z).isNumeral

/-! ### Dates and times -/

namespace Temporal

/-- **Minutes and seconds that a clock shows**: those of the bit fields of a time stop at 59. -/
def IsSexagesimal (bytes : List UInt8) : Prop :=
  let clock := (packed bytes).natAbs / packedSecond
  clock / 64 % 64 ≤ 59 ∧ clock % 64 ≤ 59

theorem Time.isSexagesimal_bytes {digits : Nat} (t : Time digits) : IsSexagesimal t.bytes := by
  have hs := t.sexagesimal
  unfold IsSexagesimal
  rw [t.natAbs_packed_div]
  unfold Time.clock
  omega

/-- A clock may be followed by any fraction. -/
theorem exists_unsigned_append {cs : List Char} {n : Nat} (h : Duration.Clock cs n)
    (digits micros : Nat) : ∃ m, Duration.Unsigned (cs ++ renderFraction digits micros) m := by
  unfold renderFraction
  by_cases h0 : digits = 0
  · rw [if_pos h0, List.append_nil]
    exact ⟨_, .whole h⟩
  · rw [if_neg h0]
    exact ⟨_, .point h (digits_shown digits micros) ((List.length_take_le _ _).trans (by omega))⟩

/-- **The text of a packed time writes its length**, whatever its hours and its fraction. -/
theorem exists_writes_renderPacked (digits : Nat) {bytes : List UInt8} (h : IsSexagesimal bytes) :
    ∃ t, Duration.Writes (renderPacked digits (packed bytes)) t := by
  have hclock := Duration.clock_renderClock
    (h := (packed bytes).natAbs / packedSecond / 0x1000 % 0x400) (by omega) h
  obtain ⟨n, hn⟩ := exists_unsigned_append hclock digits ((packed bytes).natAbs % packedSecond)
  unfold renderPacked
  rw [List.append_assoc]
  by_cases hneg : packed bytes < 0
  · rw [if_pos hneg]
    exact ⟨_, .minus hn⟩
  · rw [if_neg hneg]
    exact ⟨_, .unsigned hn⟩

theorem exists_digit_renderDate (year : Int) (month day : Nat) :
    ∃ c ∈ renderDate year month day, c.isDigit = true := by
  obtain ⟨c, hc, hd⟩ := (digits_padded 2 day).exists_digit (padded_ne_nil 2 day)
  refine ⟨c, ?_, hd⟩
  simp [renderDate, hc]

theorem exists_digit_date {bytes : List UInt8} (h : bytes.length = 3) :
    ∃ cs, date? bytes = some cs ∧ ∃ c ∈ cs, c.isDigit = true :=
  ⟨_, if_pos h, exists_digit_renderDate _ _ _⟩

theorem exists_digit_dateTime {digits : Nat} {bytes : List UInt8}
    (h : bytes.length = 5 + fractionBytes digits) :
    ∃ cs, dateTime? digits bytes = some cs ∧ ∃ c ∈ cs, c.isDigit = true := by
  refine ⟨_, if_pos h, ?_⟩
  obtain ⟨c, hc, hd⟩ := exists_digit_renderDate _ _ _
  exact ⟨c, List.mem_append_left _ (List.mem_append_left _ hc), hd⟩

theorem exists_digit_timestamp {digits : Nat} {bytes : List UInt8}
    (h : bytes.length = 4 + fractionBytes digits) (offset : Int) :
    ∃ cs, timestamp? digits offset bytes = some cs ∧ ∃ c ∈ cs, c.isDigit = true := by
  rcases timestamp?_cases h offset with htext | ⟨second, part, htext⟩
  · exact ⟨_, htext, '0', by decide, rfl⟩
  · obtain ⟨c, hc, hd⟩ := exists_digit_renderDate _ _ _
    exact ⟨_, htext, c, List.mem_append_left _ (List.mem_append_left _ hc), hd⟩

end Temporal

/-! ### Values that are read back -/

namespace Column

/-- **A value is read back** by a column: the number or the text that is printed for it is a literal
of an equal value. -/
def ReadsBack (c : Column) (v : Value) : Prop :=
  ∃ text w, (v.toRowJson = .number text ∨ v.toRowJson = .text text) ∧
    c.literal text = .ok w ∧ w.compare v = .eq

variable {c : Column} {cs : List Char} {bytes : List UInt8}

/-- A literal of a column of bytes. -/
theorem literal_eq_ofBinaryLiteral {text : String} (hb : c.type.isBinary = true)
    (hn : Text.lower text.toList ≠ "null".toList) :
    c.literal text = Value.ofBinaryLiteral text.toList := by
  unfold literal
  rw [if_neg hn, if_pos hb]

/-- A literal of any other column that has a value. -/
theorem literal_eq_ok {text : String} {v : Value} (hb : c.type.isBinary = false)
    (hn : Text.lower text.toList ≠ "null".toList) (hread : c.literal? text.toList = some v) :
    c.literal text = .ok v := by
  unfold literal
  rw [if_neg hn, hb, hread]
  rfl

/-- No other literal is null. -/
theorem literal?_ne_null : c.literal? cs ≠ some .null := by
  have mapped {α : Type} {f : α → Value} (hf : ∀ a, f a ≠ .null) (x : Option α) :
      f <$> x ≠ some .null := by
    cases x with
    | none => exact nofun
    | some a => exact fun h => hf a (Option.some.inj h)
  unfold literal?
  simp only
  split
  · split
    all_goals
      refine mapped ?_ _
      exact fun _ => nofun
  · split
    case h_7 => split <;> exact nofun
    all_goals
      refine mapped ?_ _
      exact fun _ => nofun

/-- **Only null is read as null**, whatever the column. -/
theorem isNull_of_literal {text : String} {v : Value} (h : c.literal text = .ok v) :
    v.isNull = true ↔ Text.lower text.toList = "null".toList := by
  unfold literal at h
  split at h
  · next hnull =>
    cases h
    exact iff_of_true rfl hnull
  · next hn =>
    refine iff_of_false (fun hnull => ?_) hn
    obtain rfl : v = .null := by
      cases v <;> first | rfl | cases hnull
    split at h
    · unfold Value.ofBinaryLiteral at h
      grind
    · split at h
      · next hread =>
        cases h
        exact literal?_ne_null hread
      · cases h

theorem readsBack_bytes (hb : c.type.isBinary = true) (data : List UInt8) :
    c.ReadsBack (.bytes data) := by
  refine ⟨Value.hexText data, .bytes data, .inr rfl, ?_, Value.compare_self _⟩
  unfold Value.hexText
  rw [literal_eq_ofBinaryLiteral hb, String.toList_ofList, Value.ofBinaryLiteral, Hex.read_encode]
  rw [String.toList_ofList]
  exact Text.lower_ne_null ⟨'0', List.mem_cons_self, rfl⟩

open Numeral (maxLong unsigned? signed?)

theorem bigEndian_le_maxLong (h : bytes.length ≤ 8) : bigEndian bytes ≤ maxLong := by
  have hlt := bigEndian_lt bytes
  have hle : Nat.pow 256 bytes.length ≤ Nat.pow 256 8 := Nat.pow_le_pow_right (by omega) h
  have hlong : Nat.pow 256 8 = maxLong + 1 := rfl
  omega

section NotBinary
variable (hother : c.type.isBinary = false)
include hother

theorem readsBack_of {v w : Value}
    (hprinted : v.toRowJson = .number (String.ofList cs) ∨ v.toRowJson = .text (String.ofList cs))
    (hdigit : ∃ d ∈ cs, d.isDigit = true) (hread : c.literal? cs = some w)
    (hequal : w.compare v = .eq) : c.ReadsBack v := by
  refine ⟨_, w, hprinted, literal_eq_ok hother ?_ ?_, hequal⟩
  · rw [String.toList_ofList]
    exact Text.lower_ne_null hdigit
  · rw [String.toList_ofList, hread]

/-- A value that is read from a text of digits and marks as it stands. -/
theorem readsBack_of_isNumeral {v : Value}
    (hprinted : v.toRowJson = .number (String.ofList cs) ∨ v.toRowJson = .text (String.ofList cs))
    (h : IsNumeral cs) (hread : c.literal? cs = some v) : c.ReadsBack v :=
  readsBack_of hother hprinted h.digit hread v.compare_self

theorem readsBack_uint (hc : ∀ cs, c.literal? cs = .uint <$> unsigned? maxLong (Text.trim cs))
    {n : Nat} (hn : n ≤ maxLong) : c.ReadsBack (.uint n) := by
  have hnumeral : IsNumeral (digits n) :=
    ⟨fun _ hd => .inl (Numeral.isDigit_of_mem_digits hd),
      Digits.exists_digit (fun _ hd => Numeral.isDigit_of_mem_digits hd) (Numeral.digits_ne_nil n)⟩
  refine readsBack_of_isNumeral hother (.inl rfl) hnumeral ?_
  rw [hc, hnumeral.bare.trim_eq, Numeral.unsigned?_digits hn]
  rfl

theorem readsBack_int (hc : ∀ cs, c.literal? cs = .int <$> signed? 64 (Text.trim cs)) {z : Int}
    (hz : -2 ^ 63 ≤ z ∧ z < 2 ^ 63) : c.ReadsBack (.int z) := by
  have hnumeral := Numeral.isNumeral_paddedInt z
  refine readsBack_of_isNumeral hother (.inl rfl) hnumeral ?_
  rw [hc, hnumeral.bare.trim_eq, Numeral.signed?_paddedInt hz]
  rfl

/-- **Integers of up to eight bytes are read back**, signed or not. -/
theorem readsBack_ofInteger {size : Nat} (hs : 1 ≤ size ∧ size ≤ 8) (hl : bytes.length = size)
    (hc : ∀ cs, c.literal? cs = if c.unsigned then .uint <$> unsigned? maxLong (Text.trim cs)
      else .int <$> signed? 64 (Text.trim cs)) :
    c.ReadsBack (.ofInteger size c.unsigned bytes) := by
  unfold Value.ofInteger
  rw [if_neg (not_not.mpr hl)]
  by_cases hu : c.unsigned = true
  · rw [if_pos hu]
    simp only [if_pos hu] at hc
    exact readsBack_uint hother hc (bigEndian_le_maxLong (by omega))
  · rw [if_neg hu]
    simp only [if_neg hu] at hc
    obtain ⟨k, hk⟩ : ∃ k, 8 * size = k + 1 := ⟨8 * size - 1, by omega⟩
    have hlt : bigEndian bytes < 2 ^ k * 2 := by
      have h := bigEndian_lt bytes
      rw [hl, show Nat.pow 256 size = 2 ^ (8 * size) from (Nat.pow_mul 2 8 size).symm, hk] at h
      rwa [← Nat.pow_succ]
    have hle : 2 ^ k ≤ 2 ^ 63 := Nat.pow_le_pow_right (by omega) (by omega)
    refine readsBack_int hother hc ?_
    rw [hk, Nat.add_sub_cancel]
    show -2 ^ 63 ≤ (bigEndian bytes : Int) - ((2 ^ k : Nat) : Int) ∧
      (bigEndian bytes : Int) - ((2 ^ k : Nat) : Int) < 2 ^ 63
    omega

/-- **A text is read back**, as a text or as its bytes. -/
theorem readsBack_ofText (hc : ∀ cs, c.literal? cs =
      if c.charset = .binary then some (.bytes (Utf8.encode (String.ofList cs)))
      else some (.str (String.ofList cs)))
    {text : Option (List Char)} (h : ∃ cs, text = some cs ∧ ∃ d ∈ cs, d.isDigit = true) :
    c.ReadsBack (.ofText .str bytes text) := by
  obtain ⟨cs, rfl, hdigit⟩ := h
  by_cases hb : c.charset = .binary
  · refine readsBack_of hother (.inr rfl) hdigit ((hc cs).trans (if_pos hb)) ?_
    show Value.compare (.bytes _) (.str _) = .eq
    rw [Value.compare_octets (.bytes _) (.str _), Value.utf8_encode_eq]
    exact Std.ReflOrd.compare_self
  · exact readsBack_of hother (.inr rfl) hdigit ((hc cs).trans (if_neg hb)) (Value.compare_self _)

theorem readsBack_decimal {precision scale : Nat} (hc : ∀ cs, c.literal? cs =
      (Exact.ofText? (Text.trim cs)).map fun _ => .decimal (String.ofList (Text.trim cs)))
    (h : ∃ cs, Packed.decode? precision scale bytes = some cs) :
    c.ReadsBack (.ofText .decimal bytes (Packed.decode? precision scale bytes)) := by
  obtain ⟨cs, hcs⟩ := h
  obtain ⟨q, hq⟩ := Packed.exists_writes_of_decode? hcs
  obtain ⟨e, he, -⟩ := Exact.ofText?_of_writes hq
  rw [hcs]
  refine readsBack_of_isNumeral hother (.inr rfl) hq.isNumeral ?_
  rw [hc, hq.isNumeral.bare.trim_eq, he]
  rfl

theorem readsBack_time (hc : ∀ cs, c.literal? cs =
      (Duration.micros? (Text.trim cs)).map fun _ => .time (String.ofList (Text.trim cs)))
    {t : Int} (h : Duration.Writes cs t) : c.ReadsBack (.time (String.ofList cs)) := by
  refine readsBack_of_isNumeral hother (.inr rfl) h.isNumeral ?_
  rw [hc, h.isNumeral.bare.trim_eq, Duration.micros?_eq_wrap h]
  rfl

end NotBinary

end Column

/-! ### The values of a column -/

/-- Types whose values are printed as digits: as numbers, dates and times, or as bytes. -/
def ColumnType.isDigital (t : ColumnType) : Bool :=
  match t with
  | .tinyInt | .smallInt | .mediumInt | .int | .bigInt | .year | .bit _ | .decimal .. => true
  | .date | .dateTime _ | .timestamp _ | .time _ => true
  | t => t.isBinary

namespace Column
variable {c : Column} {bytes : List UInt8}

/-- **Bytes that a column may hold**: of its length, and of a time that a clock shows. -/
structure Holds (c : Column) (bytes : List UInt8) : Prop where
  declared : c.type.Declared
  length : ∀ n ∈ c.fixedLength, bytes.length = n
  sexagesimal : ∀ digits, c.type = .time digits → Temporal.IsSexagesimal bytes

/-- A column may hold the stored values of its type. -/
theorem Canonical.holds (hd : c.type.Declared) (h : c.Canonical bytes) : c.Holds bytes := by
  refine ⟨hd, h.size, fun digits htype => ?_⟩
  have hform := h.form
  unfold IsForm at hform
  rw [htype] at hform
  obtain ⟨t, rfl⟩ := hform
  exact t.isSexagesimal_bytes

/-- **What is printed for a value is a literal of an equal value.** -/
theorem literal_of_printed (hc : c.type.isDigital = true) (h : c.Holds bytes) (offset : Int) :
    c.ReadsBack (c.decode offset bytes) := by
  obtain ⟨hd, hlength, hs⟩ := h
  obtain ⟨name, type, nullable, unsigned, charset⟩ := c
  unfold decode
  cases type with
  | tinyInt | smallInt | mediumInt | int | bigInt =>
    exact readsBack_ofInteger rfl (by decide) (hlength _ rfl) fun _ => rfl
  | year =>
    obtain ⟨b, rfl⟩ := List.length_eq_one_iff.mp (hlength _ rfl)
    have hb := b.toNat_lt
    refine readsBack_uint rfl (fun _ => rfl) ?_
    show _ ≤ 2 ^ 64 - 1
    split <;> omega
  | bit =>
    have hl : bytes.length ≤ 8 := by
      rw [hlength _ rfl]
      exact Value.ceilDiv_le_eight hd.2
    simp only [Value.ofBits]
    rw [if_pos hl]
    exact readsBack_uint rfl (fun _ => rfl) (bigEndian_le_maxLong hl)
  | decimal p s =>
    obtain ⟨hp, -, -, hs⟩ := hd
    exact readsBack_decimal rfl (fun _ => rfl) (Packed.exists_decode? hp hs (hlength _ rfl))
  | date =>
    exact readsBack_ofText rfl (fun _ => rfl) (Temporal.exists_digit_date (hlength _ rfl))
  | dateTime =>
    exact readsBack_ofText rfl (fun _ => rfl) (Temporal.exists_digit_dateTime (hlength _ rfl))
  | timestamp =>
    exact readsBack_ofText rfl (fun _ => rfl)
      (Temporal.exists_digit_timestamp (hlength _ rfl) offset)
  | time digits =>
    obtain ⟨t, ht⟩ := Temporal.exists_writes_renderPacked digits (hs digits rfl)
    simp only [Temporal.time?]
    rw [if_pos (hlength _ rfl)]
    exact readsBack_time rfl (fun _ => rfl) ht
  | binary | varBinary | tinyBlob | blob | mediumBlob | longBlob | json =>
    exact readsBack_bytes rfl bytes
  | _ => cases hc

/-- Half a second before zero, a time without hours, minutes and seconds. -/
theorem literal_of_printed_half :
    (ofType "lead" (.time 1)).Holds [0x7F, 0xFF, 0xFF, 0xCE] ∧
      (ofType "lead" (.time 1)).ReadsBack
        ((ofType "lead" (.time 1)).decode 0 [0x7F, 0xFF, 0xFF, 0xCE]) := by
  have hfew : (1 : Nat) ≤ 6 := by decide
  have hholds : (ofType "lead" (.time 1)).Holds [0x7F, 0xFF, 0xFF, 0xCE] :=
    ⟨hfew, fun n hn => Option.some.inj hn, fun _ _ => by
      show _ ∧ _
      decide +kernel⟩
  exact ⟨hholds, literal_of_printed rfl hholds 0⟩

end Column
end Tablespace
