import Tablespace.Options
import Tablespace.Page.Index
import Tablespace.Page.Overflow
import Tablespace.Record.Basic
import Tablespace.Table.Layout
import Tablespace.Value.Decode

/-! # Decoding records

The fields of a record follow its origin. Before its header, downwards, lie the null bitmap and
then the lengths of the fields that vary, one byte each or two for a long value of a big field. A
value that ends in a pointer goes on in overflow pages.

* `Codec`: the layout of the records of a table. `Codec.of`: the codec of a table.
* `Codec.read`: the record at an origin of a page, whole or up to its key. -/

namespace Tablespace

/-- **How much of a record is decoded.** -/
inductive Depth
  /-- Header, key and child. -/
  | key
  /-- Every field. -/
  | full
  deriving DecidableEq, Repr

/-- **What it takes to decode the records of a table.** -/
structure Codec where
  table : Table
  layout : Layout
  timestampOffset : Int

namespace Codec

/-- **The codec of a table** that passes its check. -/
def of (t : Table) (o : Options) : Except Error Codec := do
  let layout ← t.layout
  return { table := t, layout, timestampOffset := o.timestampOffset }

/-- The number of key fields. -/
def keyLength (c : Codec) : Nat := c.layout.keyFields.length

/-- Where the decoding of a record stands: the place above the next byte of a length, and the
cursor in front of the next field. -/
structure Heads where
  lengths : Nat
  body : Cursor

/-- The byte at an offset of a page, which is there if all is well. -/
def byteOf (p : Page) (i : Nat) : Except Error UInt8 :=
  match p.data.get? i with
  | some b => .ok b
  | none => .error (.stray i)

/-- Whether the bit of a field is set in the null bitmap, which ends below `header`. -/
def isNull (p : Page) (header bit : Nat) : Except Error Bool :=
  if header < bit / 8 + 1 then .error (.stray header)
  else do
    let b ← byteOf p (header - 1 - bit / 8)
    return b.toNat.testBit (bit % 8)

/-- The next byte of a length. -/
def lengthByte (p : Page) (h : Heads) : Except Error (Nat × Heads) :=
  match h.lengths with
  | 0 => p.damaged .recordStart
  | i + 1 => do
    let b ← byteOf p i
    return (b.toNat, { h with lengths := i })

/-- The length of a stored field, and whether it ends in a pointer. -/
def fieldLength (p : Page) (f : Field) (h : Heads) : Except Error (Nat × Bool × Heads) :=
  match f.fixedLength with
  | some n => .ok (n, false, h)
  | none => do
    let (b, h) ← lengthByte p h
    if f.big && b.testBit 7 then
      let (b', h) ← lengthByte p h
      return (b % 64 * 256 + b', b.testBit 6, h)
    else return (b, false, h)

/-- The bytes of a value that ends in a pointer: those before the pointer, and those it stands
for. -/
def resolve (src : PageSource) (p : Page) (stored : List UInt8) : Except Error (List UInt8) :=
  if stored.length < OverflowPointer.size then p.damaged (.pointerLength stored.length)
  else do
    let n := stored.length - OverflowPointer.size
    let ptr ← OverflowPointer.ofBytes (stored.drop n)
    let tail ← src.external ptr
    return stored.take n ++ tail

/-- The value of the bytes of a field. -/
def decodeField (c : Codec) (f : Field) (bytes : List UInt8) : Value :=
  match f.source with
  | .rowId => .ofSystem bytes
  | .column _ column => column.decode c.timestampOffset bytes

/-- A read at the body of a record. -/
def readBody (h : Heads) (r : Read α) : Except Error (α × Heads) := do
  let (a, body) ← (r.runAt h.body).mapError .read
  return (a, { h with body })

/-- The bytes of a field that is not null. -/
def readBytes (src : PageSource) (p : Page) (f : Field) (h : Heads) :
    Except Error (List UInt8 × Heads) := do
  let (n, external, h) ← fieldLength p f h
  let (stored, h) ← readBody h (Read.bytes n)
  let bytes ← if external then resolve src p stored else .ok stored
  return (bytes, h)

/-- The value of a field of the record whose header starts at `header`. -/
def readField (c : Codec) (src : PageSource) (p : Page) (header : Nat) (f : Field) (h : Heads) :
    Except Error (Value × Heads) := do
  let null ← match f.nullBit with
    | some bit => isNull p header bit
    | none => .ok false
  if null then return (.null, h)
  else
    let (bytes, h) ← readBytes src p f h
    return (c.decodeField f bytes, h)

/-- The values of fields in order. -/
def readFields (c : Codec) (src : PageSource) (p : Page) (header : Nat) :
    List Field → Heads → Except Error (List Value × Heads)
  | [], h => .ok ([], h)
  | f :: fs, h => do
    let (v, h) ← c.readField src p header f h
    let (vs, h) ← c.readFields src p header fs h
    return (v :: vs, h)

/-- The values of a table with those of some fields put in their places. -/
def place : List (Field × Value) → List Value → List Value
  | [], values => values
  | (f, v) :: rest, values =>
    match f.source with
    | .column i _ => place rest (values.set i v)
    | .rowId => place rest values

/-- The values of the columns of a table, from those of the fields of its layout. -/
def arrange (c : Codec) (key values : List Value) : List Value :=
  place (c.layout.valueFields.zip values)
    (place (c.layout.keyFields.zip key) (List.replicate c.table.columns.length .null))

/-- Fail unless the next record lies in the body of the page, past the infimum. -/
def checkNext (p : Page) (origin : Nat) (next : Int) : Except Error Unit :=
  let n : Int := origin + next
  if next = 0 ∨ n < IndexPage.supremum ∨ (bodyEnd : Int) ≤ n then
    p.damaged (.nextOffset origin next)
  else .ok ()

/-- The header of the record at an origin, whose next record lies in the page. -/
def readHeader (p : Page) (origin : Nat) : Except Error RecordHeader := do
  let header ← (RecordHeader.at? p.data origin).mapError fun e =>
    .corrupt p.number (.recordHeader origin e)
  if header.status ≠ .supremum then checkNext p origin header.next
  return header

/-- The bytes of the hidden fields of a transaction. -/
def rollPointerBytes : Nat := 7

/-- The fields of a user record, after its header. -/
def readUser (c : Codec) (src : PageSource) (p : Page) (leaf : Bool) (depth : Depth) (r : Record) :
    Except Error Record := do
  let header := r.origin - RecordHeader.size
  if header < c.layout.nullBytes then p.damaged (.nullBitmap r.origin)
  else
    let body ← (Cursor.at? p.data r.origin).mapError .read
    let (key, h) ← c.readFields src p header c.layout.keyFields
      { lengths := header - c.layout.nullBytes, body }
    if !leaf then
      let (child, _) ← readBody h Read.u32
      return { r with key, child := some child }
    else if depth = .key then return { r with key }
    else
      let (transactionId, h) ← readBody h Read.u48
      let (rollPointer, h) ← readBody h (Read.uint rollPointerBytes)
      let (values, _) ← c.readFields src p header c.layout.valueFields h
      return { r with
        key
        values := c.arrange key values
        transactionId := some transactionId
        rollPointer := some rollPointer }

/-- **The record at an origin of a page.** Leaves hold ordinary records and internal pages node
pointers; system records have no fields. -/
def read (c : Codec) (src : PageSource) (p : Page) (leaf : Bool) (depth : Depth) (origin : Nat) :
    Except Error Record := do
  let header ← readHeader p origin
  let r : Record := {
    page := p.number, origin, header, key := [], values := [], transactionId := none,
    rollPointer := none, child := none }
  match header.status, leaf with
  | .infimum, _ | .supremum, _ => return r
  | .ordinary, true | .nodePointer, false => c.readUser src p leaf depth r
  | status, _ => p.damaged (.recordStatus status origin leaf)

end Codec
end Tablespace
