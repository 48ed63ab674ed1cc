import Tablespace.Proofs.Packed
import Tablespace.Proofs.TimeOrder

/-! # The order of stored values

Pages are sorted by bytes and searched by values. For the types whose values are stored in their
order this makes no difference: what the bytes of two values are in the order of, the values are in
the order of as well.

* `Column.IsForm`, `Column.Canonical`: the bytes that a type stores for its values.
* `Column.compare_decode_of_canonical`: values are in the order of their bytes. -/

namespace Tablespace

variable {a b : List UInt8}

/-! ### Numbers -/

namespace Value

/-- **Integers** are in the order of their bytes, signed ones too, as their highest bit is
flipped. -/
theorem compare_ofInteger {size : Nat} (ha : a.length = size) (hb : b.length = size)
    (unsigned : Bool) : (ofInteger size unsigned a).compare (ofInteger size unsigned b) =
      Ord.compare a b := by
  have hbytes := compare_bigEndian (ha.trans hb.symm)
  unfold ofInteger
  rw [if_neg (not_not.mpr ha), if_neg (not_not.mpr hb), hbytes]
  cases unsigned with
  | true =>
    simp only [if_true]
    exact compare_uint ..
  | false =>
    simp only [Bool.false_eq_true, if_false]
    rw [compare_int]
    exact compare_congr (by omega) (by omega) (by omega)

/-- Years are counted from 1900, but for the year zero. -/
theorem compare_ofYear (ha : a.length = 1) (hb : b.length = 1) :
    (ofYear a).compare (ofYear b) = Ord.compare a b := by
  obtain ⟨x, rfl⟩ := List.length_eq_one_iff.mp ha
  obtain ⟨y, rfl⟩ := List.length_eq_one_iff.mp hb
  have hzero : ∀ z : UInt8, z = 0 ↔ z.toNat = 0 := fun z => UInt8.toNat_inj.symm
  have hbytes : Ord.compare [x] [y] = Ord.compare x.toNat y.toNat := by
    rw [compare_bigEndian (show [x].length = [y].length from rfl)]
    simp [bigEndian]
  rw [hbytes]
  unfold ofYear
  rw [compare_uint]
  simp only [hzero]
  refine compare_congr ?_ ?_ ?_ <;> split <;> split <;> omega

theorem compare_ofBits (h : a.length = b.length) :
    (ofBits a).compare (ofBits b) = Ord.compare a b := by
  unfold ofBits
  rw [← h]
  split
  · rw [compare_uint, compare_bigEndian h]
  · exact compare_octets (.bytes a) (.bytes b)

/-! ### Texts -/

/-- Bytes are texts of a character set. -/
def IsText (charset : Charset) (bytes : List UInt8) : Prop :=
  match charset with
  | .binary | .latin1 => True
  | _ => ∃ s, Utf8.encode s = bytes

/-- **Texts** are in the order of their bytes in any character set. -/
theorem compare_ofString {charset : Charset} (ha : IsText charset a) (hb : IsText charset b) :
    (ofString charset a).compare (ofString charset b) = Ord.compare a b := by
  have utf8 : (∃ s, Utf8.encode s = a) → (∃ s, Utf8.encode s = b) →
      (Value.str (Utf8.decode a)).compare (.str (Utf8.decode b)) = Ord.compare a b := by
    rintro ⟨s, rfl⟩ ⟨t, rfl⟩
    rw [compare_octets (.str _) (.str _), ← utf8_encode_eq, ← utf8_encode_eq, Utf8.decode_encode,
      Utf8.decode_encode]
  cases charset with
  | binary => exact compare_octets (.bytes a) (.bytes b)
  | latin1 =>
    refine (compare_octets (.str _) (.str _)).trans ?_
    rw [← utf8_encode_eq, ← utf8_encode_eq]
    exact compare_octets_latin1 a b
  | utf8mb4 | utf8mb3 | ascii => exact utf8 ha hb

end Value

/-! ### Columns -/

namespace Column

/-- The bytes that are a value of the column. The types that are not stored in order have none. -/
def IsForm (c : Column) (bytes : List UInt8) : Prop :=
  match c.type with
  | .tinyInt | .smallInt | .mediumInt | .int | .bigInt | .year | .bit _ | .varBinary _ => True
  | .decimal p s => Packed.IsPacked p s bytes
  | .date => Temporal.IsDate bytes
  | .dateTime n => Temporal.IsDateTime n bytes
  | .timestamp n => Temporal.IsTimestamp n bytes
  | .time n => ∃ t : Temporal.Time n, t.bytes = bytes
  | .varChar _ => Value.IsText c.charset bytes
  | _ => False

/-- **Stored values** of the types that are stored in order: as many bytes as the type takes, in the
form that it gives them. -/
structure Canonical (c : Column) (bytes : List UInt8) : Prop where
  size : ∀ n, c.fixedLength = some n → bytes.length = n
  form : c.IsForm bytes

/-- **Stored values are in the order of their bytes**, whatever the offset that timestamps are shown
with. -/
theorem compare_decode_of_canonical {c : Column} {offset : Int}
    (ho : -2 ^ 31 ≤ offset ∧ offset < 2 ^ 31) (ha : c.Canonical a) (hb : c.Canonical b) :
    (c.decode offset a).compare (c.decode offset b) = Value.compareOctets a b := by
  obtain ⟨hsa, hfa⟩ := ha
  obtain ⟨hsb, hfb⟩ := hb
  unfold fixedLength at hsa hsb
  unfold IsForm at hfa hfb
  unfold decode
  show _ = Ord.compare a b
  cases htype : c.type with
  | tinyInt | smallInt | mediumInt | int | bigInt =>
    rw [htype] at hsa hsb
    exact Value.compare_ofInteger (hsa _ rfl) (hsb _ rfl) c.unsigned
  | year =>
    rw [htype] at hsa hsb
    exact Value.compare_ofYear (hsa _ rfl) (hsb _ rfl)
  | bit n =>
    rw [htype] at hsa hsb
    exact Value.compare_ofBits ((hsa _ rfl).trans (hsb _ rfl).symm)
  | varBinary n => exact Value.compare_octets (.bytes a) (.bytes b)
  | varChar n =>
    rw [htype] at hfa hfb
    exact Value.compare_ofString hfa hfb
  | decimal p s =>
    rw [htype] at hfa hfb
    exact Packed.IsPacked.compare_decode hfa hfb
  | date =>
    rw [htype] at hfa hfb
    exact Temporal.IsDate.compare_decode hfa hfb
  | dateTime n =>
    rw [htype] at hfa hfb
    exact Temporal.IsDateTime.compare_decode hfa hfb
  | timestamp n =>
    rw [htype] at hfa hfb
    exact Temporal.IsTimestamp.compare_decode ho hfa hfb
  | time n =>
    rw [htype] at hfa hfb
    obtain ⟨t, rfl⟩ := hfa
    obtain ⟨u, rfl⟩ := hfb
    exact Temporal.Time.compare_decode t u
  | float | double | char | binary | tinyText | text | mediumText | longText | tinyBlob | blob
  | mediumBlob | longBlob | json | enum | set =>
    rw [htype] at hfa
    exact hfa.elim

/-- The decimals -12.34 and 0.05. -/
theorem compare_decode_of_canonical_decimal :
    (-2 ^ 31 ≤ (0 : Int) ∧ (0 : Int) < 2 ^ 31) ∧
      (ofType "balance" (.decimal 4 2)).Canonical [0x73, 0xDD] ∧
      (ofType "balance" (.decimal 4 2)).Canonical [0x80, 0x05] ∧
      ((ofType "balance" (.decimal 4 2)).decode 0 [0x73, 0xDD]).compare
        ((ofType "balance" (.decimal 4 2)).decode 0 [0x80, 0x05]) =
          Value.compareOctets [0x73, 0xDD] [0x80, 0x05] := by
  have hsize : ∀ l : List UInt8, l.length = 2 →
      ∀ n, (ofType "balance" (.decimal 4 2)).fixedLength = some n → l.length = n := by
    intro l hl n hn
    exact hl.trans (Option.some.inj hn)
  have hread : Numeral.nat? ['1', '2', '3', '4'] = some 1234 ∧
      Numeral.nat? ['0', '0', '0', '5'] = some 5 := by
    decide +kernel
  obtain ⟨⟨hne, hdigits⟩, hvalue⟩ := Numeral.nat?_eq_some.mp hread.1
  obtain ⟨⟨hne', hdigits'⟩, -⟩ := Numeral.nat?_eq_some.mp hread.2
  have hpos : 0 < Numeral.value ['1', '2', '3', '4'] := by omega
  have ha : Packed.IsPacked 4 2 (Packed.pack true ['1', '2'] ['3', '4']) :=
    .mk hdigits hne rfl rfl fun _ => hpos
  have hb : Packed.IsPacked 4 2 (Packed.pack false ['0', '0'] ['0', '5']) :=
    .mk hdigits' hne' rfl rfl (by decide)
  have hbytes : Packed.pack true ['1', '2'] ['3', '4'] = [0x73, 0xDD] ∧
      Packed.pack false ['0', '0'] ['0', '5'] = [0x80, 0x05] := by
    decide +kernel
  rw [hbytes.1] at ha
  rw [hbytes.2] at hb
  have ho : -2 ^ 31 ≤ (0 : Int) ∧ (0 : Int) < 2 ^ 31 := by decide
  have ha' : (ofType "balance" (.decimal 4 2)).Canonical [0x73, 0xDD] := ⟨hsize _ rfl, ha⟩
  have hb' : (ofType "balance" (.decimal 4 2)).Canonical [0x80, 0x05] := ⟨hsize _ rfl, hb⟩
  exact ⟨ho, ha', hb', compare_decode_of_canonical ho ha' hb'⟩

end Column
end Tablespace
