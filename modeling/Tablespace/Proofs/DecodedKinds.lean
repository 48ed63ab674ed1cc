import Tablespace.Proofs.Packed
import Tablespace.Proofs.TypeText

/-! # Kinds of decoded values

The bytes that every value of a column takes and the bytes that its decoder asks for are told apart
from each other, the one by the type and the other by each decoder. They agree: bytes of that length
are decoded as a value of the kind of the column, and never shown as they are unless the column
holds bytes.

* `Value.Kind`, `Value.kind`: the kinds of values that are not null.
* `Column.kindOf`: the kind that a column has for its values.
* `Packed.exists_decode?`: a decimal is read from all bytes of its length.
* `Column.kind_decode`: the value of bytes of the length of a column is of its kind.
  `Column.kind_decode_of_variable`: so are the bytes of a column that has no length. -/

namespace Tablespace

/-! ### Kinds -/

namespace Value

/-- **The kinds of values.** -/
inductive Kind
  | int
  | uint
  | float
  | double
  | decimal
  | str
  | time
  | bytes
  deriving DecidableEq

/-- The kind of a value; null has none. -/
def kind : Value → Option Kind
  | .null => none
  | .int _ => some .int
  | .uint _ => some .uint
  | .float _ => some .float
  | .double _ => some .double
  | .decimal _ => some .decimal
  | .str _ => some .str
  | .time _ => some .time
  | .bytes _ => some .bytes

end Value

/-- **The kind of the values of a column.** An enumeration has numbers for what it does not list. -/
def Column.kindOf (c : Column) (bytes : List UInt8) : Value.Kind :=
  match c.type with
  | .tinyInt | .smallInt | .mediumInt | .int | .bigInt => if c.unsigned then .uint else .int
  | .float => .float
  | .double => .double
  | .decimal .. => .decimal
  | .date | .dateTime _ | .timestamp _ | .set _ => .str
  | .time _ => .time
  | .year | .bit _ => .uint
  | .enum elements => if bigEndian bytes ≤ elements.length then .str else .uint
  | .char _ | .varChar _ | .tinyText | .text | .mediumText | .longText =>
    if c.charset = .binary then .bytes else .str
  | .binary _ | .varBinary _ | .tinyBlob | .blob | .mediumBlob | .longBlob | .json => .bytes

/-! ### Decoders -/

namespace Packed

/-- **A decimal is read from all bytes of its length**, digits or not. -/
theorem exists_decode? {precision scale : Nat} (hp : 0 < precision) (hs : scale ≤ precision)
    {bytes : List UInt8} (h : bytes.length = decimalBytes precision scale) :
    ∃ cs, decode? precision scale bytes = some cs := by
  have hlength : 0 + groupsBytes (wholeGroups (precision - scale) ++ fractionGroups scale) =
      (unsign bytes).2.length := by
    rw [Guarded.groupsBytes_append, Guarded.length_unsign, h, decimalBytes, Nat.zero_add]
  obtain ⟨values, -, hvalues⟩ := Guarded.readGroups_eq hlength
  rw [List.drop_zero] at hvalues
  unfold decode?
  simp only
  rw [if_neg (groups_ne_nil (by omega)), hvalues]
  exact ⟨_, rfl⟩

end Packed

/-- The text of a timestamp of the right length is that of zero or that of a second. -/
theorem Temporal.timestamp?_cases {digits : Nat} {bytes : List UInt8}
    (h : bytes.length = 4 + fractionBytes digits) (offset : Int) :
    timestamp? digits offset bytes = some zeroTimestamp ∨
      ∃ second part, timestamp? digits offset bytes = some (renderSecond second ++ part) := by
  unfold timestamp?
  rw [if_pos h]
  by_cases hzero : bigEndian (bytes.take 4) = 0
  · exact .inl (if_pos hzero)
  · exact .inr ⟨_, _, if_neg hzero⟩

namespace Value
variable {bytes : List UInt8}

theorem kind_ofText {f : String → Value} {k : Kind} (hf : ∀ s, (f s).kind = some k)
    {text : Option (List Char)} (h : ∃ cs, text = some cs) :
    (ofText f bytes text).kind = some k := by
  obtain ⟨cs, rfl⟩ := h
  exact hf _

theorem kind_ofInteger {size : Nat} (h : bytes.length = size) (unsigned : Bool) :
    (ofInteger size unsigned bytes).kind = some (if unsigned then .uint else .int) := by
  unfold ofInteger
  rw [if_neg (not_not.mpr h)]
  cases unsigned <;> rfl

theorem kind_ofSingle (h : bytes.length = 4) : (ofSingle bytes).kind = some .float := by
  rw [ofSingle, if_pos h]
  rfl

theorem kind_ofDouble (h : bytes.length = 8) : (ofDouble bytes).kind = some .double := by
  rw [ofDouble, if_pos h]
  rfl

theorem kind_ofYear (h : bytes.length = 1) : (ofYear bytes).kind = some .uint := by
  obtain ⟨b, rfl⟩ := List.length_eq_one_iff.mp h
  rfl

theorem kind_ofString (charset : Charset) (bytes : List UInt8) :
    (ofString charset bytes).kind = some (if charset = .binary then .bytes else .str) := by
  cases charset <;> rfl

theorem kind_ofEnum {elements : List String}
    (h : bytes.length = if elements.length < 256 then 1 else 2) :
    (ofEnum elements bytes).kind =
      some (if bigEndian bytes ≤ elements.length then .str else .uint) := by
  unfold ofEnum
  rw [if_pos (by split at h <;> omega)]
  cases hn : bigEndian bytes with
  | zero => rfl
  | succ n =>
    by_cases hle : n + 1 ≤ elements.length
    · have he := List.getElem?_eq_getElem hle
      simp only [he]
      rw [if_pos hle]
      rfl
    · have hnone : elements[n]? = none := List.getElem?_eq_none (by omega)
      simp only [hnone]
      rw [if_neg hle]
      rfl

theorem kind_ofSet (elements : List String) (bytes : List UInt8) :
    (ofSet elements bytes).kind = some .str := rfl

theorem ceilDiv_le_eight {width : Nat} (h : width ≤ 64) : ceilDiv width 8 ≤ 8 := by
  unfold ceilDiv
  omega

theorem kind_ofBits {width : Nat} (hw : width ≤ 64) (h : bytes.length = ceilDiv width 8) :
    (ofBits bytes).kind = some .uint := by
  unfold ofBits
  rw [if_pos (h ▸ ceilDiv_le_eight hw)]
  rfl

end Value

/-! ### Columns -/

namespace Column
variable {c : Column} {bytes : List UInt8} {n : Nat}

/-- **Bytes of the length of a column are a value of its kind.** -/
theorem kind_decode_of_declared (hd : c.type.Declared) (hl : c.fixedLength = some bytes.length)
    (offset : Int) : (c.decode offset bytes).kind = some (c.kindOf bytes) := by
  obtain ⟨name, type, nullable, unsigned, charset⟩ := c
  unfold decode kindOf
  cases type with
  | tinyInt | smallInt | mediumInt | int | bigInt =>
    exact Value.kind_ofInteger (Option.some.inj hl).symm unsigned
  | float => exact Value.kind_ofSingle (Option.some.inj hl).symm
  | double => exact Value.kind_ofDouble (Option.some.inj hl).symm
  | decimal p s =>
    obtain ⟨hp, -, -, hs⟩ := hd
    exact Value.kind_ofText (fun _ => rfl)
      (Packed.exists_decode? hp hs (Option.some.inj hl).symm)
  | date | dateTime | time =>
    exact Value.kind_ofText (fun _ => rfl) ⟨_, if_pos (Option.some.inj hl).symm⟩
  | timestamp =>
    refine Value.kind_ofText (fun _ => rfl) ?_
    rcases Temporal.timestamp?_cases (Option.some.inj hl).symm offset with h | ⟨_, _, h⟩
    · exact ⟨_, h⟩
    · exact ⟨_, h⟩
  | year => exact Value.kind_ofYear (Option.some.inj hl).symm
  | char => exact Value.kind_ofString charset _
  | binary => rfl
  | enum => exact Value.kind_ofEnum (Option.some.inj hl).symm
  | set => exact Value.kind_ofSet _ bytes
  | bit => exact Value.kind_ofBits hd.2 (Option.some.inj hl).symm
  | varChar | varBinary | tinyText | text | mediumText | longText | tinyBlob | blob | mediumBlob
  | longBlob | json => cases hl

/-- **Of the columns of a fixed length, those of bytes** are the binary ones. -/
theorem kindOf_eq_bytes_iff (hn : c.fixedLength = some n) (bytes : List UInt8) :
    c.kindOf bytes = .bytes ↔
      (∃ m, c.type = .binary m) ∨ (∃ m, c.type = .char m) ∧ c.charset = .binary := by
  obtain ⟨name, type, nullable, unsigned, charset⟩ := c
  cases type <;> simp_all [kindOf, fixedLength, ColumnType.fixedLength] <;> grind

/-- **A column of no fixed length holds text or bytes**, whatever its bytes are. -/
theorem kind_decode_of_variable (hn : c.fixedLength = none) (offset : Int) (bytes : List UInt8) :
    (c.decode offset bytes).kind =
      some (if c.type.isText = true ∧ c.charset ≠ .binary then .str else .bytes) := by
  have htext := Value.kind_ofString c.charset
  obtain ⟨name, type, nullable, unsigned, charset⟩ := c
  cases type with
  | char | varChar | tinyText | text | mediumText | longText =>
    refine (htext _).trans ?_
    cases charset <;> rfl
  | varBinary | tinyBlob | blob | mediumBlob | longBlob | json => rfl
  | _ => cases hn

/-- **The length of a column and its decoder agree.** Whatever bytes of its length a column holds,
they are a value of its kind, and bytes only for a column of bytes. -/
theorem kind_decode {text : List Char} (hp : ColumnType.parse text = .ok c.type)
    (hn : c.fixedLength = some n) (hl : bytes.length = n) (offset : Int) :
    (c.decode offset bytes).kind = some (c.kindOf bytes) ∧
      (c.kindOf bytes = .bytes ↔
        (∃ m, c.type = .binary m) ∨ (∃ m, c.type = .char m) ∧ c.charset = .binary) := by
  subst hl
  exact ⟨kind_decode_of_declared (ColumnType.declared_of_parse hp) hn offset,
    kindOf_eq_bytes_iff hn bytes⟩

/-- Bytes of a decimal of which no group is made of digits. -/
theorem kind_decode_stray :
    ColumnType.parse "decimal(12,2)".toList = .ok (ofType "price" (.decimal 12 2)).type ∧
      (ofType "price" (.decimal 12 2)).fixedLength = some 6 ∧
      ((ofType "price" (.decimal 12 2)).decode 0 (List.replicate 6 0xFF)).kind = some .decimal := by
  have hp :
      ColumnType.parse "decimal(12,2)".toList = .ok (ofType "price" (.decimal 12 2)).type := by
    decide
  exact ⟨hp, rfl, (kind_decode hp rfl rfl 0).1⟩

end Column
end Tablespace
