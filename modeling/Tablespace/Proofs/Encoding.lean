import Tablespace.Proofs.Decoding
import Tablespace.Proofs.Layout
import Tablespace.Proofs.Reads

/-! # The compact format

How a row is stored as a record of a page: around the origin, upwards the bytes of its fields, and
downwards its header, the null bitmap and the lengths of the fields that vary. Decoding a record
that stores a row gives the row back, whatever else the page holds.

* `Cell`, `StoredRow`: what a row stores. `StoredRow.Valid`: what may be stored.
* `Codec.Holds`: a page holds the encoding of a row at an origin.
* `Codec.readFields_eq_ok`: the decoding of fields in order, a step `Codec.readField_eq_ok` each.
* `Codec.arrange_eq`: values in the order of the layout are put in the order of the columns.
* `Codec.read_of_holds`: decoding undoes the encoding. -/

namespace Tablespace

/-! ### Numbers -/

/-- The lowest bytes of a number, most significant first. -/
def bytesOf : (width n : Nat) → List UInt8
  | 0, _ => []
  | width + 1, n => bytesOf width (n / 256) ++ [UInt8.ofNat n]

theorem length_bytesOf (width n : Nat) : (bytesOf width n).length = width := by
  induction width generalizing n with
  | zero => rfl
  | succ width ih => rw [bytesOf, List.length_append, ih, List.length_singleton]

theorem bigEndian_append_singleton (l : List UInt8) (b : UInt8) :
    bigEndian (l ++ [b]) = bigEndian l * 256 + b.toNat := by
  unfold bigEndian
  rw [List.foldl_append]
  rfl

theorem bigEndian_bytesOf {width n : Nat} (h : n < Nat.pow 256 width) :
    bigEndian (bytesOf width n) = n := by
  induction width generalizing n with
  | zero =>
    have hn : n < 1 := h
    rw [bytesOf, bigEndian_nil]
    omega
  | succ width ih =>
    have hn : n / 256 < Nat.pow 256 width := by
      rw [pow_length_succ] at h
      exact Nat.div_lt_of_lt_mul (by rwa [Nat.mul_comm])
    rw [bytesOf, bigEndian_append_singleton, ih hn, UInt8.toNat_ofNat']
    omega

/-! ### Headers -/

namespace RecordHeader

/-- The first byte of a header, two bits of which are spare. -/
def flagsOf (owned : Nat) (leftmost deleted : Bool) (spare : Nat) : Nat :=
  owned + (if leftmost then 16 else 0) + (if deleted then 32 else 0) + 64 * spare

/-- **The bytes of a header.** -/
def bytes (h : RecordHeader) (spare : Nat) : List UInt8 :=
  bytesOf 1 (flagsOf h.owned h.leftmost h.deleted spare) ++
    (bytesOf 2 (8 * h.heapNumber + h.status.code) ++ bytesOf 2 (h.next % 65536).toNat)

/-- A header whose numbers fit into their bits. -/
structure Fits (h : RecordHeader) : Prop where
  owned : h.owned < 16
  heapNumber : h.heapNumber < 8192
  next : -32768 ≤ h.next ∧ h.next < 32768

theorem bmod_next {n : Int} (h : -32768 ≤ n ∧ n < 32768) :
    Int.bmod ((n % 65536).toNat : Int) 65536 = n := by
  rw [Int.bmod_def]
  split <;> omega

theorem flagsOf_spec : ∀ owned < 16, ∀ spare < 4, ∀ leftmost deleted : Bool,
    flagsOf owned leftmost deleted spare < 256 ∧
      flagsOf owned leftmost deleted spare % 16 = owned ∧
      (flagsOf owned leftmost deleted spare).testBit 4 = leftmost ∧
      (flagsOf owned leftmost deleted spare).testBit 5 = deleted := by
  decide +kernel

theorem ofCode?_place (n : Nat) (s : Status) : Status.ofCode? (8 * n + s.code) = some s := by
  have hs : s.code < 8 := by cases s <;> decide
  have hmod : (8 * n + s.code) % 8 = s.code % 8 := by omega
  unfold Status.ofCode?
  rw [hmod]
  exact Status.ofCode?_code s

theorem runAt_fields {c : Cursor} (h : c.position + 5 ≤ c.buffer.size) :
    fields.runAt c = .ok ((bigEndian (c.buffer.bytes c.position 1),
      bigEndian (c.buffer.bytes (c.position + 1) 2),
      Int.bmod (bigEndian (c.buffer.bytes (c.position + 1 + 2) 2)) 65536),
      { c with position := c.position + 1 + 2 + 2 }) := by
  have h1 : Read.u8.runAt c = _ := Read.runAt_unsigned (by omega)
  have h2 : Read.u16.runAt { c with position := c.position + 1 } = _ :=
    Read.runAt_unsigned (by simp only; omega)
  have h3 : Read.i16.runAt { c with position := c.position + 1 + 2 } = _ :=
    Read.runAt_signed (by simp only; omega)
  unfold fields
  rw [Read.runAt_bind h1, Read.runAt_bind h2, Read.runAt_bind h3]
  rfl

/-- **A header is read back from its bytes.** -/
theorem at?_eq_ok {h : RecordHeader} {b : Buffer} {origin spare : Nat} (hf : h.Fits)
    (ho : size ≤ origin) (hb : origin ≤ b.size) (hs : spare < 4)
    (e : b.bytes (origin - size) size = h.bytes spare) : at? b origin = .ok h := by
  have ho' : 5 ≤ origin := ho
  obtain ⟨hlt, howned, hleft, hdel⟩ := flagsOf_spec _ hf.owned _ hs h.leftmost h.deleted
  have hheap := hf.heapNumber
  have hcode : h.status.code < 8 := by cases h.status <;> decide
  have hplace : 8 * h.heapNumber + h.status.code < Nat.pow 256 2 := by
    show _ < 65536
    omega
  have hnext : (h.next % 65536).toNat < Nat.pow 256 2 := by
    show _ < 65536
    omega
  -- the header is cut into its three numbers
  have hlen : ∀ start w n, (b.bytes start w).length = (bytesOf w n).length := fun start w n => by
    rw [Buffer.length_bytes, length_bytesOf]
  rw [show size = 1 + (2 + 2) from rfl, Buffer.bytes_add, Buffer.bytes_add, bytes] at e
  obtain ⟨e1, e⟩ := List.append_inj e (hlen _ _ _)
  obtain ⟨e2, e3⟩ := List.append_inj e (hlen _ _ _)
  have hread : Read.from? b (origin - size) fields = .ok
      (flagsOf h.owned h.leftmost h.deleted spare, 8 * h.heapNumber + h.status.code, h.next) := by
    have hrun := runAt_fields (c := ⟨b, origin - size⟩) (by show origin - 5 + 5 ≤ b.size; omega)
    simp only [size] at hrun e1 e2 e3
    rw [e1, e2, e3, bigEndian_bytesOf hlt, bigEndian_bytesOf hplace, bigEndian_bytesOf hnext,
      bmod_next hf.next] at hrun
    unfold Read.from? Cursor.at?
    rw [if_pos (by unfold size; omega)]
    show (do return (← fields.runAt ⟨b, origin - 5⟩).1) = _
    rw [hrun]
    rfl
  unfold at?
  rw [if_neg (by omega), hread]
  have hdiv : (8 * h.heapNumber + h.status.code) / 8 = h.heapNumber := by omega
  simp only [ofCode?_place, howned, hleft, hdel, hdiv]

end RecordHeader

/-! ### Cells -/

/-- **A stored value**: null, or bytes, or the bytes before a pointer, the pointer and the bytes
that it stands for. -/
inductive Cell
  | null
  | plain (bytes : List UInt8)
  | external (front pointer tail : List UInt8)
  deriving DecidableEq

namespace Cell

/-- The bytes of a cell in a record. -/
def bytes : Cell → List UInt8
  | null => []
  | plain bytes => bytes
  | external front pointer _ => front ++ pointer

def isExternal : Cell → Bool
  | external .. => true
  | _ => false

/-- The bytes that a cell stands for. -/
def content : Cell → List UInt8
  | null => []
  | plain bytes => bytes
  | external front _ tail => front ++ tail

/-- The value of a cell. -/
def value (decode : List UInt8 → Value) (cell : Cell) : Value :=
  if cell = null then .null else decode cell.content

end Cell

namespace Field

/-- The most bytes of a field that varies. -/
def maxStored (f : Field) : Nat := if f.big then 16383 else 255

/-- **The cells that a field may hold.** Those of a fixed length hold as many bytes, only fields in
the null bitmap hold null, and only big ones a pointer, which some pages resolve. -/
def Admits (src : PageSource) (f : Field) : Cell → Prop
  | .null => f.nullBit.isSome
  | .plain bytes =>
    match f.fixedLength with
    | some n => bytes.length = n
    | none => bytes.length ≤ f.maxStored
  | .external front pointer tail =>
    f.fixedLength = none ∧ f.big ∧ pointer.length = OverflowPointer.size ∧
      front.length + pointer.length ≤ f.maxStored ∧
      ∃ ptr, OverflowPointer.ofBytes pointer = .ok ptr ∧ src.external ptr = .ok tail

/-- **The bytes of a length**, in the order in which they are read: none for a fixed length or a
null, two for a pointer or a long value of a big field, and otherwise one. -/
def lengthBytes (f : Field) (cell : Cell) : List UInt8 :=
  if f.fixedLength.isSome ∨ cell = .null then []
  else if f.big ∧ (cell.isExternal ∨ 128 ≤ cell.bytes.length) then
    [UInt8.ofNat (0x80 + (if cell.isExternal then 0x40 else 0) + cell.bytes.length / 256),
      UInt8.ofNat cell.bytes.length]
  else [UInt8.ofNat cell.bytes.length]

end Field

/-! ### Rows -/

/-- **A row**: the cells of the columns by their places, and the hidden row id. -/
structure StoredRow where
  cell : Nat → Cell
  rowId : Nat

/-- **What a record holds besides its fields**, by the level of its page. -/
inductive Level
  | leaf (transactionId rollPointer : Nat)
  | internal (child : Nat)

namespace Level

def isLeaf : Level → Bool
  | leaf .. => true
  | internal _ => false

/-- The numbers fit into their bytes. -/
def Valid : Level → Prop
  | leaf transactionId rollPointer =>
    transactionId < Nat.pow 256 6 ∧ rollPointer < Nat.pow 256 Codec.rollPointerBytes
  | internal child => child < Nat.pow 256 4

/-- The fields of the records of a level. -/
def fields (c : Codec) : Level → List Field
  | leaf .. => c.layout.keyFields ++ c.layout.valueFields
  | internal _ => c.layout.keyFields

end Level

namespace StoredRow

/-- The cell of a field. -/
def cellOf (row : StoredRow) (f : Field) : Cell :=
  match f.source with
  | .column i _ => row.cell i
  | .rowId => .plain (bytesOf rowIdBytes row.rowId)

/-- The value of a field. -/
def valueOf (row : StoredRow) (c : Codec) (f : Field) : Value :=
  match f.source with
  | .column i column => (row.cell i).value (column.decode c.timestampOffset)
  | .rowId => .uint row.rowId

/-- The bytes of the lengths of some fields. -/
def lengths (row : StoredRow) (fs : List Field) : List UInt8 :=
  fs.flatMap fun f => f.lengthBytes (row.cellOf f)

/-- The bytes of some fields. -/
def bytes (row : StoredRow) (fs : List Field) : List UInt8 :=
  fs.flatMap fun f => (row.cellOf f).bytes

/-- **The bytes from the origin on.** -/
def body (row : StoredRow) (c : Codec) : Level → List UInt8
  | .leaf transactionId rollPointer =>
    row.bytes c.layout.keyFields ++ (bytesOf 6 transactionId ++
      (bytesOf Codec.rollPointerBytes rollPointer ++ row.bytes c.layout.valueFields))
  | .internal child => row.bytes c.layout.keyFields ++ bytesOf 4 child

/-- **A row that may be stored** on a level. -/
structure Valid (row : StoredRow) (c : Codec) (src : PageSource) (level : Level) : Prop where
  admits : ∀ f ∈ level.fields c, f.Admits src (row.cellOf f)
  rowId : row.rowId < Nat.pow 256 rowIdBytes
  level : level.Valid

/-- **The record that stores a row.** -/
def record (row : StoredRow) (c : Codec) (p : Page) (origin : Nat) (header : RecordHeader)
    (level : Level) : Record :=
  let key := c.layout.keyFields.map (row.valueOf c)
  match level with
  | .leaf transactionId rollPointer =>
    { Record.ofHeader p origin header with
      key
      values := c.table.columns.mapIdx fun i column =>
        (row.cell i).value (column.decode c.timestampOffset)
      transactionId := some transactionId
      rollPointer := some rollPointer }
  | .internal child => { Record.ofHeader p origin header with key, child := some child }

end StoredRow

/-! ### Pages -/

namespace Codec

/-- **A page holds the encoding of a row at an origin**: from the origin on its body, and downwards
from it its header, the null bitmap and the lengths of its fields. -/
structure Holds (c : Codec) (p : Page) (origin : Nat) (row : StoredRow) (level : Level)
    (header : RecordHeader) : Prop where
  room : (row.lengths (level.fields c)).length + c.layout.nullBytes + RecordHeader.size ≤ origin
  fits : origin + (row.body c level).length ≤ pageSize
  header : ∃ spare < 4,
    p.data.bytes (origin - RecordHeader.size) RecordHeader.size = header.bytes spare
  nulls : ∀ f ∈ level.fields c, ∀ bit ∈ f.nullBit,
    (p.data.byte (origin - 6 - bit / 8)).toNat.testBit (bit % 8) = decide (row.cellOf f = .null)
  lengths : p.data.bytes
      (origin - RecordHeader.size - c.layout.nullBytes - (row.lengths (level.fields c)).length)
      (row.lengths (level.fields c)).length = (row.lengths (level.fields c)).reverse
  body : p.data.bytes origin (row.body c level).length = row.body c level

/-- The bytes that stand before the heads: below the place of the lengths, in reverse, and after the
position of the body. -/
structure Heads.Before (p : Page) (h : Heads) (lengths body : List UInt8) : Prop where
  buffer : h.body.buffer = p.data
  room : lengths.length ≤ h.lengths
  inside : h.lengths ≤ pageSize
  lengths : p.data.bytes (h.lengths - lengths.length) lengths.length = lengths.reverse
  fits : h.body.position + body.length ≤ pageSize
  body : p.data.bytes h.body.position body.length = body

variable {p : Page} {h : Heads} {lengths body : List UInt8}

theorem lengthByte_eq_ok {b : UInt8} (hb : h.Before p (b :: lengths) body) :
    ∃ h', lengthByte p h = .ok (b.toNat, h') ∧ h'.Before p lengths body := by
  obtain ⟨top, cursor⟩ := h
  have hroom := hb.room
  have hinside := hb.inside
  have hl := hb.lengths
  simp only [List.length_cons] at hroom hinside hl
  obtain ⟨i, rfl⟩ : ∃ i, top = i + 1 := ⟨top - 1, by omega⟩
  rw [Buffer.bytes_add, List.reverse_cons,
    show i + 1 - (lengths.length + 1) = i - lengths.length by omega] at hl
  obtain ⟨hrest, hbyte⟩ := List.append_inj hl (by rw [Buffer.length_bytes, List.length_reverse])
  rw [show i - lengths.length + lengths.length = i by omega] at hbyte
  have hbyte' : p.data.byte i = b := (List.cons.inj hbyte).1
  have hi : i ≤ pageSize := by omega
  have hlen : lengths.length ≤ i := by omega
  refine ⟨⟨i, cursor⟩, ?_, ⟨hb.buffer, hlen, hi, hrest, hb.fits, hb.body⟩⟩
  have hget : p.data.get? i = some b := by
    rw [Buffer.get?_eq_some (by rw [p.size_data]; omega), hbyte']
  simp [lengthByte, byteOf, hget, bind, Except.bind, pure, Except.pure]

theorem readBody_eq_ok {stored : List UInt8} {r : Read α} {a : α}
    (hb : h.Before p lengths (stored ++ body))
    (hr : ∀ c : Cursor, c.position + stored.length ≤ c.buffer.size →
      c.buffer.bytes c.position stored.length = stored →
        r.runAt c = .ok (a, { c with position := c.position + stored.length })) :
    ∃ h', readBody h r = .ok (a, h') ∧ h'.Before p lengths body := by
  have hfits := hb.fits
  have hbody := hb.body
  rw [List.length_append] at hfits hbody
  rw [Buffer.bytes_add] at hbody
  obtain ⟨hstored, hrest⟩ := List.append_inj hbody (Buffer.length_bytes _ _ _)
  have hrun := hr h.body (by rw [hb.buffer, p.size_data]; omega) (by rw [hb.buffer]; exact hstored)
  refine ⟨{ h with body := { h.body with position := h.body.position + stored.length } }, ?_,
    ⟨hb.buffer, hb.room, hb.inside, hb.lengths, ?_, hrest⟩⟩
  · unfold readBody
    rw [hrun]
    rfl
  · show h.body.position + stored.length + body.length ≤ pageSize
    omega

theorem readBody_bytes {stored : List UInt8} (hb : h.Before p lengths (stored ++ body)) :
    ∃ h', readBody h (Read.bytes stored.length) = .ok (stored, h') ∧ h'.Before p lengths body :=
  readBody_eq_ok hb fun c hc e => by rw [Read.runAt_bytes hc, e]

theorem readBody_unsigned {width n : Nat} (hn : n < Nat.pow 256 width)
    (hb : h.Before p lengths (bytesOf width n ++ body)) :
    ∃ h', readBody h (Read.unsigned width) = .ok (n, h') ∧ h'.Before p lengths body :=
  readBody_eq_ok hb fun c hc e => by
    rw [length_bytesOf] at hc e ⊢
    rw [Read.runAt_unsigned hc, e, bigEndian_bytesOf hn]

/-! ### Fields -/

theorem longLength_spec : ∀ n < 64, ∀ external : Bool,
    0x80 + (if external then 0x40 else 0) + n < 256 ∧
      (0x80 + (if external then 0x40 else 0) + n).testBit 7 ∧
      (0x80 + (if external then 0x40 else 0) + n) % 64 = n ∧
      (0x80 + (if external then 0x40 else 0) + n).testBit 6 = external := by
  decide +kernel

theorem shortLength_spec : ∀ n < 128, n.testBit 7 = false := by
  decide +kernel

theorem length_of_admits {src : PageSource} {f : Field} {cell : Cell} (hf : f.Admits src cell)
    (hne : cell ≠ .null) (hv : f.fixedLength = none) :
    cell.bytes.length ≤ f.maxStored ∧ (cell.isExternal → f.big) := by
  cases cell with
  | null => exact absurd rfl hne
  | plain bytes =>
    simp only [Field.Admits, hv] at hf
    exact ⟨hf, nofun⟩
  | external front pointer tail =>
    obtain ⟨-, hbig, -, hle, -⟩ := hf
    exact ⟨by simpa [Cell.bytes] using hle, fun _ => hbig⟩

theorem length_of_fixedLength {src : PageSource} {f : Field} {cell : Cell} {n : Nat}
    (hf : f.Admits src cell) (hne : cell ≠ .null) (hv : f.fixedLength = some n) :
    cell.bytes.length = n ∧ cell.isExternal = false := by
  cases cell with
  | null => exact absurd rfl hne
  | plain bytes =>
    simp only [Field.Admits, hv] at hf
    exact ⟨hf, rfl⟩
  | external front pointer tail => cases hv.symm.trans hf.1

theorem fieldLength_of_long {f : Field} {n : Nat} {external : Bool} (hv : f.fixedLength = none)
    (hbig : f.big) (hn : n ≤ 16383)
    (hb : h.Before p ([UInt8.ofNat (0x80 + (if external then 0x40 else 0) + n / 256),
      UInt8.ofNat n] ++ lengths) body) :
    ∃ h', fieldLength p f h = .ok (n, external, h') ∧ h'.Before p lengths body := by
  obtain ⟨hlt, hseven, hmod, hsix⟩ := longLength_spec (n / 256) (by omega) external
  rw [List.cons_append, List.cons_append, List.nil_append] at hb
  obtain ⟨h₁, e₁, hb₁⟩ := lengthByte_eq_ok hb
  obtain ⟨h₂, e₂, hb₂⟩ := lengthByte_eq_ok hb₁
  rw [UInt8.toNat_ofNat', Nat.mod_eq_of_lt (by simpa using hlt)] at e₁
  rw [UInt8.toNat_ofNat'] at e₂
  have hsum : n / 256 * 256 + n % 2 ^ 8 = n := by omega
  refine ⟨h₂, ?_, hb₂⟩
  unfold fieldLength
  simp only [hv, e₁, bind, Except.bind, hbig, hseven, Bool.and_self, if_true, e₂, pure,
    Except.pure, hmod, hsix, hsum]

theorem fieldLength_of_short {f : Field} {n : Nat} (hv : f.fixedLength = none) (hn : n ≤ 255)
    (hshort : f.big → n < 128) (hb : h.Before p ([UInt8.ofNat n] ++ lengths) body) :
    ∃ h', fieldLength p f h = .ok (n, false, h') ∧ h'.Before p lengths body := by
  rw [List.cons_append, List.nil_append] at hb
  obtain ⟨h₁, e₁, hb₁⟩ := lengthByte_eq_ok hb
  have hcond : (f.big && n.testBit 7) = false := by
    by_cases hbig : f.big
    · rw [shortLength_spec _ (hshort hbig), Bool.and_false]
    · rw [Bool.eq_false_iff.mpr hbig, Bool.false_and]
  have hlt : n < 2 ^ 8 := by omega
  rw [UInt8.toNat_ofNat', Nat.mod_eq_of_lt hlt] at e₁
  refine ⟨h₁, ?_, hb₁⟩
  unfold fieldLength
  simp only [hv, e₁, bind, Except.bind, hcond, Bool.false_eq_true, if_false, pure, Except.pure]

/-- **The length of a cell**, from the bytes that store it. -/
theorem fieldLength_eq_ok {src : PageSource} {f : Field} {cell : Cell} (hf : f.Admits src cell)
    (hne : cell ≠ .null) (hb : h.Before p (f.lengthBytes cell ++ lengths) body) :
    ∃ h', fieldLength p f h = .ok (cell.bytes.length, cell.isExternal, h') ∧
      h'.Before p lengths body := by
  unfold Field.lengthBytes at hb
  cases hv : f.fixedLength with
  | some n =>
    obtain ⟨hlen, hext⟩ := length_of_fixedLength hf hne hv
    rw [if_pos (Or.inl (by rw [hv]; rfl)), List.nil_append] at hb
    refine ⟨h, ?_, hb⟩
    unfold fieldLength
    rw [hv, hlen, hext]
  | none =>
    obtain ⟨hle, hbig⟩ := length_of_admits hf hne hv
    unfold Field.maxStored at hle
    rw [if_neg (by simp [hv, hne])] at hb
    by_cases hlong : f.big ∧ (cell.isExternal ∨ 128 ≤ cell.bytes.length)
    · rw [if_pos hlong.1] at hle
      rw [if_pos hlong] at hb
      exact fieldLength_of_long hv hlong.1 hle hb
    · rw [if_neg hlong] at hb
      have hshort : f.big → cell.bytes.length < 128 := fun hbig =>
        Nat.lt_of_not_le fun hge => hlong ⟨hbig, Or.inr hge⟩
      have hext : cell.isExternal = false :=
        Bool.eq_false_iff.mpr fun hext => hlong ⟨hbig hext, Or.inl hext⟩
      have hn : cell.bytes.length ≤ 255 := by
        by_cases hbig' : f.big
        · exact Nat.le_of_lt (Nat.lt_trans (hshort hbig') (by decide))
        · rwa [if_neg hbig'] at hle
      rw [hext]
      exact fieldLength_of_short hv hn hshort hb

theorem resolve_eq_ok {src : PageSource} {front pointer tail : List UInt8} {ptr : OverflowPointer}
    (hlen : pointer.length = OverflowPointer.size)
    (hptr : OverflowPointer.ofBytes pointer = .ok ptr) (htail : src.external ptr = .ok tail) :
    resolve src p (front ++ pointer) = .ok (front ++ tail) := by
  unfold resolve
  rw [if_neg (by simp [hlen])]
  have hfront : (front ++ pointer).length - OverflowPointer.size = front.length := by
    rw [List.length_append, hlen, Nat.add_sub_cancel]
  simp only [hfront, List.drop_left, List.take_left, hptr, htail, bind, Except.bind, pure,
    Except.pure]

theorem readBytes_eq_ok {src : PageSource} {f : Field} {cell : Cell} (hf : f.Admits src cell)
    (hne : cell ≠ .null) (hb : h.Before p (f.lengthBytes cell ++ lengths) (cell.bytes ++ body)) :
    ∃ h', readBytes src p f h = .ok (cell.content, h') ∧ h'.Before p lengths body := by
  obtain ⟨h₁, e₁, hb₁⟩ := fieldLength_eq_ok hf hne hb
  obtain ⟨h₂, e₂, hb₂⟩ := readBody_bytes hb₁
  refine ⟨h₂, ?_, hb₂⟩
  unfold readBytes
  rw [bind_eq_ok]
  refine ⟨_, e₁, bind_eq_ok.mpr ⟨_, e₂, ?_⟩⟩
  cases cell with
  | null => exact absurd rfl hne
  | plain bytes => rfl
  | external front pointer tail =>
    obtain ⟨-, -, hlen, -, ptr, hptr, htail⟩ := hf
    exact bind_eq_ok.mpr ⟨_, resolve_eq_ok hlen hptr htail, rfl⟩

theorem isNull_eq_ok {header bit : Nat} (hroom : bit / 8 + 1 ≤ header) (hin : header ≤ pageSize) :
    isNull p header bit =
      .ok ((p.data.byte (header - 1 - bit / 8)).toNat.testBit (bit % 8)) := by
  unfold isNull byteOf
  rw [if_neg (by omega), Buffer.get?_eq_some (by rw [p.size_data]; omega)]
  rfl

theorem readField_of_isNull {c : Codec} {src : PageSource} {header bit : Nat} {f : Field}
    (hbit : f.nullBit = some bit) (hnull : isNull p header bit = .ok true) :
    c.readField src p header f h = .ok (.null, h) := by
  unfold readField
  rw [hbit, bind_eq_ok]
  exact ⟨true, hnull, rfl⟩

theorem readField_of_readBytes {c : Codec} {src : PageSource} {header : Nat} {f : Field}
    {bytes : List UInt8} {h' : Heads}
    (hnull : ∀ bit ∈ f.nullBit, isNull p header bit = .ok false)
    (e : readBytes src p f h = .ok (bytes, h')) :
    c.readField src p header f h = .ok (c.decodeField f bytes, h') := by
  unfold readField
  cases hbit : f.nullBit with
  | none => exact bind_eq_ok.mpr ⟨false, rfl, bind_eq_ok.mpr ⟨_, e, rfl⟩⟩
  | some bit => exact bind_eq_ok.mpr ⟨false, hnull bit hbit, bind_eq_ok.mpr ⟨_, e, rfl⟩⟩

/-- **The decoding of a field** passes over its cell and gives the value. -/
theorem readField_eq_ok {c : Codec} {src : PageSource} {header : Nat} {f : Field} {cell : Cell}
    (hf : f.Admits src cell) (hin : header ≤ pageSize)
    (hnull : ∀ bit ∈ f.nullBit, bit / 8 + 1 ≤ header ∧
      (p.data.byte (header - 1 - bit / 8)).toNat.testBit (bit % 8) = decide (cell = .null))
    (hb : h.Before p (f.lengthBytes cell ++ lengths) (cell.bytes ++ body)) :
    ∃ h', c.readField src p header f h = .ok (cell.value (c.decodeField f), h') ∧
      h'.Before p lengths body := by
  have hflag : ∀ bit ∈ f.nullBit, isNull p header bit = .ok (decide (cell = .null)) := by
    intro bit hbit
    rw [isNull_eq_ok (hnull bit hbit).1 hin, (hnull bit hbit).2]
  by_cases hne : cell = .null
  · subst hne
    obtain ⟨bit, hbit⟩ := Option.isSome_iff_exists.mp hf
    refine ⟨h, readField_of_isNull hbit (hflag bit hbit), ?_⟩
    simpa [Field.lengthBytes, Cell.bytes] using hb
  · obtain ⟨h', e, hb'⟩ := readBytes_eq_ok hf hne hb
    refine ⟨h', ?_, hb'⟩
    rw [decide_eq_false hne] at hflag
    rw [readField_of_readBytes hflag e, Cell.value, if_neg hne]

/-- **The decoding of fields in order** passes over their cells and gives their values. -/
theorem readFields_eq_ok {c : Codec} {src : PageSource} {header : Nat} (cell : Field → Cell)
    {fs : List Field} (hf : ∀ f ∈ fs, f.Admits src (cell f)) (hin : header ≤ pageSize)
    (hnull : ∀ f ∈ fs, ∀ bit ∈ f.nullBit, bit / 8 + 1 ≤ header ∧
      (p.data.byte (header - 1 - bit / 8)).toNat.testBit (bit % 8) = decide (cell f = .null))
    (hb : h.Before p ((fs.flatMap fun f => f.lengthBytes (cell f)) ++ lengths)
      ((fs.flatMap fun f => (cell f).bytes) ++ body)) :
    ∃ h', c.readFields src p header fs h =
        .ok (fs.map fun f => (cell f).value (c.decodeField f), h') ∧ h'.Before p lengths body := by
  induction fs generalizing h with
  | nil => exact ⟨h, rfl, hb⟩
  | cons f fs ih =>
    rw [List.flatMap_cons, List.flatMap_cons, List.append_assoc, List.append_assoc] at hb
    obtain ⟨h₁, e₁, hb₁⟩ := readField_eq_ok (c := c) (hf f (by simp)) hin (hnull f (by simp)) hb
    obtain ⟨h₂, e₂, hb₂⟩ := ih (fun g hg => hf g (by simp [hg]))
      (fun g hg => hnull g (by simp [hg])) hb₁
    refine ⟨h₂, ?_, hb₂⟩
    rw [readFields, bind_eq_ok]
    exact ⟨_, e₁, bind_eq_ok.mpr ⟨_, e₂, rfl⟩⟩

/-! ### The order of the columns -/

theorem length_place (l : List (Field × Value)) (values : List Value) :
    (place l values).length = values.length := by
  induction l generalizing values with
  | nil => rfl
  | cons a l ih =>
    obtain ⟨f, v⟩ := a
    unfold place
    cases f.source with
    | column i column => exact (ih _).trans (List.length_set ..)
    | rowId => exact ih _

/-- Values that fields give to their columns stand in the places of the columns. -/
theorem getElem?_place {g : Field → Value} {w : Nat → Value} {fs : List Field}
    (hw : ∀ f ∈ fs, ∀ j column, f.source = .column j column → g f = w j) {values : List Value}
    {i : Nat} (hi : i < values.length)
    (h : values[i]? = some (w i) ∨ ∃ f ∈ fs, ∃ column, f.source = .column i column) :
    (place (fs.zip (fs.map g)) values)[i]? = some (w i) := by
  induction fs generalizing values with
  | nil =>
    rcases h with h | ⟨_, ⟨⟩, -⟩
    exact h
  | cons f fs ih =>
    have htail := fun f' hf' => hw f' (List.mem_cons_of_mem f hf')
    -- a column that `f` does not give has its value already or gets it later
    have hskip {a : Option Value} (hf : ∀ column, f.source ≠ .column i column)
        (h : a = some (w i) ∨ ∃ f' ∈ f :: fs, ∃ column, f'.source = .column i column) :
        a = some (w i) ∨ ∃ f' ∈ fs, ∃ column, f'.source = .column i column := by
      refine h.imp_right ?_
      rintro ⟨f', hf', column, e⟩
      rcases List.mem_cons.mp hf' with rfl | hf'
      · exact absurd e (hf column)
      · exact ⟨f', hf', column, e⟩
    rw [List.map_cons, List.zip_cons_cons, place]
    cases hsource : f.source with
    | column j column =>
      refine ih htail (by rwa [List.length_set]) ?_
      by_cases hji : j = i
      · subst hji
        refine Or.inl ?_
        rw [List.getElem?_set_self hi, hw f List.mem_cons_self j column hsource]
      · rw [List.getElem?_set_ne hji]
        refine hskip (fun column' e => hji ?_) h
        rw [hsource] at e
        cases e
        rfl
    | rowId =>
      refine ih htail hi (hskip (fun column e => ?_) h)
      rw [hsource] at e
      cases e

/-- **The values of a row in the order of the columns**, from those in the order of the layout. -/
theorem arrange_eq {t : Table} {o : Options} {c : Codec} (hc : Codec.of t o = .ok c)
    (row : StoredRow) :
    c.arrange (c.layout.keyFields.map (row.valueOf c)) (c.layout.valueFields.map (row.valueOf c)) =
      c.table.columns.mapIdx fun i column =>
        (row.cell i).value (column.decode c.timestampOffset) := by
  obtain ⟨hv, rfl, hl⟩ := of_eq_ok hc
  -- what belongs in each place
  let w : Nat → Value := fun i => match c.table.columns[i]? with
    | some column => (row.cell i).value (column.decode c.timestampOffset)
    | none => .null
  have hw : ∀ f ∈ c.layout.keyFields ++ c.layout.valueFields, ∀ j column,
      f.source = .column j column → row.valueOf c f = w j := by
    intro f hf j column e
    rw [hl] at hf
    rcases Layout.exists_of_mem hf with rfl | ⟨i, bit, hi, rfl, -⟩
    · cases e
    · cases e
      simp [StoredRow.valueOf, Field.ofColumn, w, List.getElem?_eq_getElem hi]
  have hkey := fun f hf => hw f (List.mem_append_left _ hf)
  have hvalue := fun f hf => hw f (List.mem_append_right _ hf)
  unfold arrange
  refine List.ext_getElem? fun i => ?_
  by_cases hi : i < c.table.columns.length
  · have hright : (c.table.columns.mapIdx fun i column =>
        (row.cell i).value (column.decode c.timestampOffset))[i]? = some (w i) := by
      simp [w, List.getElem?_eq_getElem hi]
    rw [hright]
    refine getElem?_place hvalue (by rw [length_place, List.length_replicate]; exact hi) ?_
    obtain ⟨f, hf, hsource⟩ := Layout.exists_field hv hi
    rw [← hl] at hf
    rcases List.mem_append.mp hf with hf | hf
    · refine Or.inl (getElem?_place hkey (by rw [List.length_replicate]; exact hi) ?_)
      exact Or.inr ⟨f, hf, _, hsource⟩
    · exact Or.inr ⟨f, hf, _, hsource⟩
  · rw [List.getElem?_eq_none (by simpa [length_place] using hi),
      List.getElem?_eq_none (by simpa using hi)]

/-! ### Records -/

theorem value_cellOf {c : Codec} {row : StoredRow} (h : row.rowId < Nat.pow 256 rowIdBytes)
    (f : Field) :
    (row.cellOf f).value (c.decodeField f) = row.valueOf c f := by
  unfold StoredRow.cellOf StoredRow.valueOf
  cases hsource : f.source with
  | column i column =>
    have hdecode : c.decodeField f = column.decode c.timestampOffset := by
      funext bytes
      simp only [decodeField, hsource]
    simp only [hdecode]
  | rowId =>
    have hmod : row.rowId % 0x10000000000000000 = row.rowId :=
      Nat.mod_eq_of_lt (Nat.lt_trans h (by decide))
    simp [Cell.value, Cell.content, decodeField, hsource, Value.ofSystem, bigEndian_bytesOf h, hmod]

variable {c : Codec} {src : PageSource} {origin : Nat} {row : StoredRow} {level : Level}
variable {header : RecordHeader}

theorem Holds.readHeader_eq_ok (h : c.Holds p origin row level header) (hf : header.Fits)
    (hn : header.next ≠ 0 ∧ IndexPage.supremum ≤ origin + header.next ∧
      origin + header.next < bodyEnd) : readHeader p origin = .ok header := by
  obtain ⟨spare, hs, e⟩ := h.header
  have hroom := h.room
  have hfits := h.fits
  have hat : RecordHeader.at? p.data origin = .ok header :=
    RecordHeader.at?_eq_ok hf (by omega) (by rw [p.size_data]; omega) hs e
  have hnext : checkNext p origin header.next = .ok () := by
    unfold checkNext
    rw [if_neg (by omega)]
  unfold readHeader
  rw [hat, bind_eq_ok]
  refine ⟨header, rfl, ?_⟩
  by_cases hsup : header.status ≠ .supremum
  · rw [if_pos hsup]
    exact bind_eq_ok.mpr ⟨_, hnext, rfl⟩
  · rw [if_neg hsup]
    rfl

theorem Holds.before (h : c.Holds p origin row level header) :
    Heads.Before p ⟨origin - RecordHeader.size - c.layout.nullBytes, ⟨p.data, origin⟩⟩
      (row.lengths (level.fields c)) (row.body c level) := by
  have hroom := h.room
  have hfits := h.fits
  exact ⟨rfl, by simp only; omega, by simp only; omega, h.lengths, h.fits, h.body⟩

theorem Holds.nullBits {t : Table} {o : Options} (hc : Codec.of t o = .ok c)
    (h : c.Holds p origin row level header) {f : Field} (hf : f ∈ level.fields c) :
    ∀ bit ∈ f.nullBit, bit / 8 + 1 ≤ origin - RecordHeader.size ∧
      (p.data.byte (origin - RecordHeader.size - 1 - bit / 8)).toNat.testBit (bit % 8) =
        decide (row.cellOf f = .null) := by
  intro bit hbit
  obtain ⟨-, rfl, hl⟩ := of_eq_ok hc
  have hmem : f ∈ (Layout.of c.table).keyFields ++ (Layout.of c.table).valueFields := by
    rw [← hl]
    cases level with
    | leaf => exact hf
    | internal => exact List.mem_append_left _ hf
  have hlt : bit < c.layout.nullable := by
    rw [hl]
    rcases Layout.exists_of_mem hmem with rfl | ⟨i, bit', hi, rfl, hlt⟩
    · cases hbit
    · exact hlt bit hbit
  have hroom := h.room
  unfold Layout.nullBytes RecordHeader.size at hroom
  refine ⟨by unfold RecordHeader.size; omega, ?_⟩
  rw [← h.nulls f hf bit hbit, RecordHeader.size,
    show origin - 5 - 1 - bit / 8 = origin - 6 - bit / 8 by omega]

theorem Holds.readRow_eq_ok {t : Table} {o : Options} (hc : Codec.of t o = .ok c)
    (hv : row.Valid c src level) (h : c.Holds p origin row level header) {fs : List Field}
    (hfs : ∀ f ∈ fs, f ∈ level.fields c) {heads : Heads} {lengths body : List UInt8}
    (hb : heads.Before p (row.lengths fs ++ lengths) (row.bytes fs ++ body)) :
    ∃ heads', c.readFields src p (origin - RecordHeader.size) fs heads =
      .ok (fs.map (row.valueOf c), heads') ∧ heads'.Before p lengths body := by
  have hfits := h.fits
  obtain ⟨heads', e, hb'⟩ := readFields_eq_ok (c := c) row.cellOf
    (fun f hf => hv.admits f (hfs f hf)) (by omega) (fun f hf => h.nullBits hc (hfs f hf)) hb
  refine ⟨heads', ?_, hb'⟩
  rw [e]
  simp only [value_cellOf hv.rowId]

/-- **The fields of a record that stores a row** are decoded. -/
theorem readUser_eq_ok {t : Table} {o : Options} (hc : Codec.of t o = .ok c)
    (hv : row.Valid c src level) (h : c.Holds p origin row level header) :
    c.readUser src p level.isLeaf .full (.ofHeader p origin header) =
      .ok (row.record c p origin header level) := by
  have hroom := h.room
  have hfits := h.fits
  have hbefore := h.before
  have hnull : ¬ (Record.ofHeader p origin header).origin - RecordHeader.size <
      c.layout.nullBytes := by
    show ¬ origin - RecordHeader.size < c.layout.nullBytes
    omega
  have hcursor : Cursor.at? p.data origin = .ok ⟨p.data, origin⟩ := by
    unfold Cursor.at?
    rw [if_pos (by rw [p.size_data]; omega)]
  unfold readUser
  simp only
  rw [if_neg hnull, bind_eq_ok]
  refine ⟨⟨p.data, origin⟩, ?_, bind_eq_ok.mpr ?_⟩
  · show (Cursor.at? p.data origin).mapError Error.read = _
    rw [hcursor]
    rfl
  cases level with
  | leaf transactionId rollPointer =>
    obtain ⟨htransaction, hroll⟩ := hv.level
    simp only [Level.fields, StoredRow.lengths, List.flatMap_append, StoredRow.body] at hbefore
    obtain ⟨h₁, e₁, hb₁⟩ := h.readRow_eq_ok hc hv (fun f hf => List.mem_append_left _ hf) hbefore
    obtain ⟨h₂, e₂, hb₂⟩ := readBody_unsigned htransaction hb₁
    obtain ⟨h₃, e₃, hb₃⟩ := readBody_unsigned hroll hb₂
    rw [← List.append_nil (List.flatMap _ _), ← List.append_nil (row.bytes _)] at hb₃
    obtain ⟨h₄, e₄, -⟩ := h.readRow_eq_ok hc hv (fun f hf => List.mem_append_right _ hf) hb₃
    refine ⟨_, e₁, bind_eq_ok.mpr ⟨_, e₂, bind_eq_ok.mpr ⟨_, e₃, bind_eq_ok.mpr ⟨_, e₄, ?_⟩⟩⟩⟩
    simp only [arrange_eq hc row]
    rfl
  | internal child =>
    simp only [Level.fields, StoredRow.body] at hbefore
    rw [← List.append_nil (row.lengths _), ← List.append_nil (bytesOf 4 child)] at hbefore
    obtain ⟨h₁, e₁, hb₁⟩ := h.readRow_eq_ok hc hv (fun f hf => hf) hbefore
    obtain ⟨h₂, e₂, -⟩ := readBody_unsigned hv.level hb₁
    exact ⟨_, e₁, bind_eq_ok.mpr ⟨_, e₂, rfl⟩⟩

end Codec

/-! ### A record -/

namespace StoredNote

/-- A page of which some bytes are given; all bytes around them are zero. -/
def pageOf (number : Nat) (kind : PageKind) (start : Nat) (l : List UInt8) : Page where
  number
  header :=
    { checksum := 0, number, prevField := noPage, nextField := noPage, lsn := 0, kind
      flushLsn := 0, spaceId := 0 }
  trailer := { checksum := 0, lsnLow := 0 }
  data := { size := pageSize, byte := fun i => if start ≤ i then l.getD (i - start) 0 else 0 }
  size_data := rfl

/-- The key is the second column, and two columns may be null. -/
def table : Table where
  name := "t"
  columns :=
    [{ Column.ofType "note" (.varChar 300) with nullable := true }, .ofType "id" .int,
      { Column.ofType "score" .int with nullable := true }, .ofType "data" .blob]
  primaryKey := ["id"]

def codec : Codec := { table, layout := Layout.of table, timestampOffset := 0 }

/-- Page 2 holds the tail of a value. -/
def source : PageSource
  | 2 => .ok (pageOf 2 .blob headerSize [0, 0, 0, 2, 0xFF, 0xFF, 0xFF, 0xFF, 4, 5])
  | n => .error (.argument (.pageNumber n 3))

/-- A long note, the key 7, no score, and data that begins in the record. -/
def row : StoredRow where
  cell
    | 0 => .plain (List.replicate 200 0x61)
    | 1 => .plain [0x80, 0, 0, 7]
    | 3 => .external [1, 2, 3] [0, 0, 0, 0, 0, 0, 0, 2, 0, 0, 0, 38, 0, 0, 0, 0, 0, 0, 0, 2] [4, 5]
    | _ => .null
  rowId := 0

def level : Level := .leaf 9 0

def header : RecordHeader where
  owned := 0
  deleted := false
  leftmost := false
  heapNumber := 2
  status := .ordinary
  next := -188

/-- The page of the record, whose origin is 300. -/
def page : Page :=
  pageOf 3 .index 290 ([23, 0xC0, 200, 0x80, 2, 0, 0, 0x10, 0xFF, 0x44] ++
    ([0x80, 0, 0, 7, 0, 0, 0, 0, 0, 9, 0, 0, 0, 0, 0, 0, 0] ++ List.replicate 200 0x61 ++
      [1, 2, 3, 0, 0, 0, 0, 0, 0, 0, 2, 0, 0, 0, 38, 0, 0, 0, 0, 0, 0, 0, 2]))

theorem valid : row.Valid codec source level where
  admits := by
    have hfields : level.fields codec =
        [.ofColumn 1 (.ofType "id" .int) none,
          .ofColumn 0 { Column.ofType "note" (.varChar 300) with nullable := true } (some 0),
          .ofColumn 2 { Column.ofType "score" .int with nullable := true } (some 1),
          .ofColumn 3 (.ofType "data" .blob) none] := by decide +kernel
    rw [hfields]
    simp only [List.forall_mem_cons]
    refine ⟨?_, ?_, ?_, ?_, List.forall_mem_nil _⟩
    · show [0x80, 0, 0, 7].length = 4
      rfl
    · show (List.replicate 200 (0x61 : UInt8)).length ≤ 16383
      rw [List.length_replicate]
      decide
    · rfl
    · exact ⟨rfl, rfl, rfl, by decide, _, rfl, by decide +kernel⟩
  rowId := by decide
  level := ⟨by decide, by decide⟩

theorem holds : codec.Holds page 300 row level header where
  room := by decide +kernel
  fits := by decide +kernel
  header := ⟨0, by decide +kernel, by decide +kernel⟩
  nulls := by decide +kernel
  lengths := by decide +kernel
  body := by decide +kernel

theorem fits : header.Fits where
  owned := by decide
  heapNumber := by decide
  next := by decide

end StoredNote

/-! ### The round trip -/

namespace Codec
variable {c : Codec} {src : PageSource} {p : Page} {origin : Nat} {row : StoredRow} {level : Level}
variable {header : RecordHeader}

/-- **Decoding undoes the encoding.** A record that stores a row of a checked table is decoded to
that row, and up to its key to the key of the row, wherever it lies and whatever else the page
holds. -/
theorem read_of_holds {t : Table} {o : Options} (hc : Codec.of t o = .ok c)
    (hv : row.Valid c src level) (hf : header.Fits) (hs : header.status = .ofLevel level.isLeaf)
    (hn : header.next ≠ 0 ∧ IndexPage.supremum ≤ origin + header.next ∧
      origin + header.next < bodyEnd)
    (h : c.Holds p origin row level header) :
    c.read src p level.isLeaf .full origin = .ok (row.record c p origin header level) ∧
      c.read src p level.isLeaf .key origin =
        .ok (row.record c p origin header level).keyPart := by
  have hfull : c.read src p level.isLeaf .full origin = .ok (row.record c p origin header level) :=
    read_eq_ok.mpr ⟨header, h.readHeader_eq_ok hf hn, Or.inr ⟨hs, readUser_eq_ok hc hv h⟩⟩
  exact ⟨hfull, read_key_of_read hfull⟩

end Codec

namespace StoredNote

/-- The record of the note. -/
theorem read_storedNote :
    codec.read source page level.isLeaf .full 300 = .ok (row.record codec page 300 header level) ∧
      codec.read source page level.isLeaf .key 300 =
        .ok (row.record codec page 300 header level).keyPart :=
  Codec.read_of_holds (t := table) (o := .default) rfl valid fits rfl (by decide) holds

end StoredNote
end Tablespace
