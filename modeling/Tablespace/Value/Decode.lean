import Tablespace.Column.Basic
import Tablespace.Value.Decimal
import Tablespace.Value.Temporal

/-! # Decoding stored values

The bytes of a field are read by the type of its column. Bytes that the type cannot have stored
are shown as they are.

* `Column.decode`: the value of the bytes of a field.
* `Value.ofSystem`: the value of the bytes of a hidden field. -/

namespace Tablespace

namespace Value

/-- A text, or the bytes themselves where they are none. -/
def ofText (f : String → Value) (bytes : List UInt8) : Option (List Char) → Value
  | some cs => f (String.ofList cs)
  | none => .bytes bytes

/-- An integer of `size` bytes. A signed one has its highest bit flipped. -/
def ofInteger (size : Nat) (unsigned : Bool) (bytes : List UInt8) : Value :=
  if bytes.length ≠ size then .bytes bytes
  else if unsigned then .uint (bigEndian bytes)
  else .int ((bigEndian bytes : Int) - Nat.pow 2 (8 * size - 1))

/-- A single, least significant byte first. -/
def ofSingle (bytes : List UInt8) : Value :=
  if bytes.length = 4 then .float (UInt32.ofNat (bigEndian bytes.reverse)) else .bytes bytes

/-- A double, least significant byte first. -/
def ofDouble (bytes : List UInt8) : Value :=
  if bytes.length = 8 then .double (UInt64.ofNat (bigEndian bytes.reverse)) else .bytes bytes

/-- A year, counted from 1900; zero stands for no year. -/
def ofYear (bytes : List UInt8) : Value :=
  match bytes with
  | [b] => .uint (if b = 0 then 0 else 1900 + b.toNat)
  | _ => .bytes bytes

/-- Text in a character set. -/
def ofString (charset : Charset) (bytes : List UInt8) : Value :=
  match charset with
  | .binary => .bytes bytes
  | .latin1 => .str (Utf8.ofLatin1 bytes)
  | _ => .str (Utf8.decode bytes)

/-- The element of a number, counted from 1. Zero is the empty text, and a number beyond the
elements is shown as itself. -/
def ofEnum (elements : List String) (bytes : List UInt8) : Value :=
  if bytes.length = 1 ∨ bytes.length = 2 then
    match bigEndian bytes with
    | 0 => .str ""
    | n + 1 =>
      match elements[n]? with
      | some e => .str e
      | none => .uint (n + 1)
  else .bytes bytes

/-- The elements of a mask of 64 bits, lowest bit first, with commas between them. -/
def ofSet (elements : List String) (bytes : List UInt8) : Value :=
  let mask := bigEndian bytes % 0x10000000000000000
  -- the place of a bit wraps around as the shift of a word does
  let chosen := elements.zipIdx.filter fun e => mask.testBit (e.2 % 64)
  .str (",".intercalate (chosen.map Prod.fst))

/-- Up to 64 elements have a bit each. -/
theorem ofSet_of_length_le {elements : List String} (h : elements.length ≤ 64)
    (bytes : List UInt8) : ofSet elements bytes =
      .str (",".intercalate ((elements.zipIdx.filter fun e =>
        (bigEndian bytes % 0x10000000000000000).testBit e.2).map Prod.fst)) := by
  unfold ofSet
  rw [List.filter_congr fun e he => ?_]
  have hlt := List.snd_lt_of_mem_zipIdx he
  have hplace : e.2 % 64 = e.2 := Nat.mod_eq_of_lt (by omega)
  rw [hplace]

/-- A number of up to 64 bits. -/
def ofBits (bytes : List UInt8) : Value :=
  if bytes.length ≤ 8 then .uint (bigEndian bytes) else .bytes bytes

/-- A hidden field, of whose number the 64 lowest bits are kept. -/
def ofSystem (bytes : List UInt8) : Value := .uint (bigEndian bytes % 0x10000000000000000)

end Value

/-- **The value of the bytes of a field**, timestamps shown with an offset. -/
def Column.decode (c : Column) (offset : Int) (bytes : List UInt8) : Value :=
  match c.type with
  | .tinyInt => .ofInteger 1 c.unsigned bytes
  | .smallInt => .ofInteger 2 c.unsigned bytes
  | .mediumInt => .ofInteger 3 c.unsigned bytes
  | .int => .ofInteger 4 c.unsigned bytes
  | .bigInt => .ofInteger 8 c.unsigned bytes
  | .float => .ofSingle bytes
  | .double => .ofDouble bytes
  | .decimal p s => .ofText .decimal bytes (Packed.decode? p s bytes)
  | .date => .ofText .str bytes (Temporal.date? bytes)
  | .dateTime n => .ofText .str bytes (Temporal.dateTime? n bytes)
  | .timestamp n => .ofText .str bytes (Temporal.timestamp? n offset bytes)
  | .time n => .ofText .time bytes (Temporal.time? n bytes)
  | .year => .ofYear bytes
  | .char _ => .ofString c.charset (Text.dropEndWhile (· = 0x20) bytes)
  | .varChar _ | .tinyText | .text | .mediumText | .longText => .ofString c.charset bytes
  | .enum elements => .ofEnum elements bytes
  | .set elements => .ofSet elements bytes
  | .bit _ => .ofBits bytes
  | .binary _ | .varBinary _ | .tinyBlob | .blob | .mediumBlob | .longBlob | .json =>
    .bytes bytes

end Tablespace
