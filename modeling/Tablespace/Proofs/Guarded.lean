import Tablespace.Image
import Tablespace.Proofs.Encoding
import Tablespace.Proofs.GuardedValue
import Tablespace.Proofs.TypeText
import Tablespace.Table.Definition

/-! # Guarded decoding of records and pages

The members and slices by which records are decoded, overflow pages followed and checksums
calculated are guarded as those of values are. Whatever the bytes, no guard fails, provided that the
fields of the layout come from the columns of the table.

* `Guarded.resolve`, `Guarded.read`, `Guarded.load`: the guarded decoders of a value that goes on in
  overflow pages, of a record and of a page.
* `Codec.Sound`: what a codec needs for its guards to hold; `Codec.sound_of_ofJson`: the codec of a
  table that is defined by a text has it.
* `Guarded.read_eq`, `Guarded.load_eq`: the guarded decoders give what the others give. -/

namespace Tablespace
namespace Guarded
variable {α : Type}

/-! ### Values that go on in overflow pages -/

/-- A pointer of 20 bytes. -/
def pointer (bytes : List UInt8) : Except Error OverflowPointer :=
  if bytes.length = OverflowPointer.size then do
    let flags := (← member bytes 12).toNat
    return {
      spaceId := ← word bytes 0
      page := ← word bytes 4
      offset := ← word bytes 8
      length := ← word bytes 16
      owner := !flags.testBit 7
      inherited := flags.testBit 6 }
  else .error (.read (.outOfBounds 0 OverflowPointer.size bytes.length))

/-- A beginning of a list is no longer than it should be. -/
theorem length_of_slice {l l' : List α} {n : Nat} (h : slice l 0 n = .ok l') : l'.length = n := by
  unfold slice at h
  split at h
  · cases h
    rw [List.drop_zero, List.length_take]
    omega
  · cases h

/-- What is still to come of a value after `done` of its `total` bytes, from a part on. -/
def externalFrom (src : PageSource) (total done : Nat) (visited : List Nat) (page offset : Nat) :
    Except Error (List UInt8) :=
  if total ≤ done then .ok []
  else if page ∈ visited then .error (.corrupt page .blobCycle)
  else
    match _h : src.partOf page offset with
    | .error e => .error e
    | .ok (part, data) =>
      match _hs : slice data 0 (min data.length (total - done)) with
      | .error e => .error e
      | .ok shown =>
        match part.next with
        | some next => do
          let rest ← externalFrom src total (done + shown.length) (page :: visited) next headerSize
          return shown ++ rest
        | none =>
          if total ≤ done + shown.length then .ok shown
          else .error (.corrupt page (.blobEnd (done + shown.length) total))
termination_by total - done
decreasing_by
  have := PageSource.length_of_partOf _h
  have := length_of_slice _hs
  omega

/-- The bytes of a value that ends in a pointer. -/
def resolve (src : PageSource) (p : Page) (stored : List UInt8) : Except Error (List UInt8) :=
  if stored.length < OverflowPointer.size then p.damaged (.pointerLength stored.length)
  else do
    let n := stored.length - OverflowPointer.size
    let ptr ← pointer (← after stored n)
    let front ← slice stored 0 n
    let tail ← externalFrom src ptr.length 0 [] ptr.page ptr.offset
    return front ++ tail

theorem bytes_ofList {l : List UInt8} {start n : Nat} (h : start + n ≤ l.length) :
    (Buffer.ofList l).bytes start n = (l.drop start).take n := by
  induction n generalizing start with
  | zero => simp [Buffer.bytes]
  | succ n ih =>
    rw [Buffer.bytes, ih (by omega), List.drop_eq_getElem_cons (show start < l.length by omega),
      List.take_succ_cons]
    congr 1
    show l.getD start 0 = l[start]
    rw [List.getD_eq_getElem]

theorem word_eq {l : List UInt8} {start : Nat} (h : start + 4 ≤ l.length) :
    word l start = .ok ((Buffer.ofList l).uint start 4) := by
  unfold word Buffer.uint
  rw [slice_eq h, bytes_ofList h]
  rfl

theorem pointer_eq (bytes : List UInt8) : pointer bytes = OverflowPointer.ofBytes bytes := by
  unfold pointer OverflowPointer.ofBytes
  split
  · next hl =>
    have hl : bytes.length = 20 := hl
    have hflags : member bytes 12 = .ok ((Buffer.ofList bytes).byte 12) :=
      member_eq (by simp [Buffer.ofList, hl])
    rw [hflags, word_eq (by omega), word_eq (by omega), word_eq (by omega), word_eq (by omega)]
    rfl
  · rfl

theorem slice_min {l : List α} (n : Nat) : slice l 0 (min l.length n) = .ok (l.take n) := by
  rw [slice_zero (by omega), Nat.min_comm, ← List.take_eq_take_min]

/-- The bytes from a part on. -/
theorem externalFrom_part {src : PageSource} {total done : Nat} {visited : List Nat}
    {page offset : Nat} {part : BlobPart} {data : List UInt8} (h : ¬ total ≤ done)
    (hv : page ∉ visited) (hp : src.partOf page offset = .ok (part, data)) :
    externalFrom src total done visited page offset =
      let shown := data.take (total - done)
      match part.next with
      | some next => do
        let rest ← externalFrom src total (done + shown.length) (page :: visited) next headerSize
        return shown ++ rest
      | none =>
        if total ≤ done + shown.length then .ok shown
        else .error (.corrupt page (.blobEnd (done + shown.length) total)) := by
  have hs := slice_min (l := data) (total - done)
  rw [externalFrom.eq_def, if_neg h, if_neg hv]
  split
  · next e he =>
    rw [hp] at he
    cases he
  · next part' data' hp' =>
    rw [hp] at hp'
    cases hp'
    split
    · next e he =>
      rw [hs] at he
      cases he
    · next shown he =>
      rw [hs] at he
      cases he
      rfl

theorem externalFrom_eq (src : PageSource) (total done : Nat) (visited : List Nat)
    (page offset : Nat) : externalFrom src total done visited page offset =
      src.externalFrom total done visited page offset := by
  fun_induction PageSource.externalFrom src total done visited page offset with
  | case1 done visited page offset h => rw [externalFrom.eq_def, if_pos h]
  | case2 done visited page offset h hv => rw [externalFrom.eq_def, if_neg h, if_pos hv]
  | case3 done visited page offset h hv e he =>
    rw [externalFrom.eq_def, if_neg h, if_neg hv]
    split
    · next e' he' =>
      rw [he] at he'
      cases he'
      rfl
    · next he' =>
      rw [he] at he'
      cases he'
  | case4 done visited page offset h hv part data hp shown next hn ih =>
    rw [externalFrom_part h hv hp, hn]
    simp only [shown, ih]
  | case5 done visited page offset h hv part data hp shown hn hle =>
    rw [externalFrom_part h hv hp, hn]
    exact if_pos hle
  | case6 done visited page offset h hv part data hp shown hn hgt =>
    rw [externalFrom_part h hv hp, hn]
    exact if_neg hgt

theorem resolve_eq (src : PageSource) (p : Page) (stored : List UInt8) :
    resolve src p stored = Codec.resolve src p stored := by
  unfold resolve Codec.resolve
  split
  · rfl
  · simp only
    rw [after_eq (by omega), slice_zero (by omega)]
    simp only [bind, Except.bind, pointer_eq, externalFrom_eq]
    rfl

/-! ### Records -/

variable (c : Codec) (src : PageSource) (p : Page)

/-- The value of the bytes of a field, its column looked up in the table. -/
def decodeField (f : Field) (bytes : List UInt8) : Except Error Value :=
  match f.source with
  | .rowId => .ok (.ofSystem bytes)
  | .column i _ => do decode (← member c.table.columns i) c.timestampOffset bytes

/-- The bytes of a field that is not null. -/
def readBytes (f : Field) (h : Codec.Heads) : Except Error (List UInt8 × Codec.Heads) := do
  let (n, external, h) ← Codec.fieldLength p f h
  let (stored, h) ← Codec.readBody h (Read.bytes n)
  let bytes ← if external then resolve src p stored else .ok stored
  return (bytes, h)

/-- The value of a field of a record. -/
def readField (header : Nat) (f : Field) (h : Codec.Heads) :
    Except Error (Value × Codec.Heads) := do
  let null ← match f.nullBit with
    | some bit => Codec.isNull p header bit
    | none => .ok false
  if null then return (.null, h)
  else
    let (bytes, h) ← readBytes src p f h
    return (← decodeField c f bytes, h)

/-- The values of fields in order. -/
def readFields (header : Nat) : List Field → Codec.Heads →
    Except Error (List Value × Codec.Heads)
  | [], h => .ok ([], h)
  | f :: fs, h => do
    let (v, h) ← readField c src p header f h
    let (vs, h) ← readFields header fs h
    return (v :: vs, h)

/-- The values of a table with those of some fields put in their places. -/
def place : List (Field × Value) → List Value → Except Error (List Value)
  | [], values => .ok values
  | (f, v) :: rest, values =>
    match f.source with
    | .column i _ => do place rest (← replace values i v)
    | .rowId => place rest values

/-- The values of the columns of a table. -/
def arrange (key values : List Value) : Except Error (List Value) := do
  let row ← place (c.layout.keyFields.zip key) (List.replicate c.table.columns.length .null)
  place (c.layout.valueFields.zip values) row

/-- The fields of a user record. -/
def readUser (leaf : Bool) (depth : Depth) (r : Record) : Except Error Record := do
  let header := r.origin - RecordHeader.size
  if header < c.layout.nullBytes then p.damaged (.nullBitmap r.origin)
  else
    let body ← (Cursor.at? p.data r.origin).mapError .read
    let (key, h) ← readFields c src p header c.layout.keyFields
      { lengths := header - c.layout.nullBytes, body }
    if !leaf then
      let (child, _) ← Codec.readBody h Read.u32
      return { r with key, child := some child }
    else if depth = .key then return { r with key }
    else
      let (transactionId, h) ← Codec.readBody h Read.u48
      let (rollPointer, h) ← Codec.readBody h (Read.uint Codec.rollPointerBytes)
      let (values, _) ← readFields c src p header c.layout.valueFields h
      return { r with
        key
        values := ← arrange c key values
        transactionId := some transactionId
        rollPointer := some rollPointer }

/-- **The record at an origin of a page.** -/
def read (leaf : Bool) (depth : Depth) (origin : Nat) : Except Error Record := do
  let header ← Codec.readHeader p origin
  let r : Record := .ofHeader p origin header
  match header.status, leaf with
  | .infimum, _ | .supremum, _ => return r
  | .ordinary, true | .nodePointer, false => readUser c src p leaf depth r
  | status, _ => p.damaged (.recordStatus status origin leaf)

end Guarded

/-- **What a codec needs for its guards to hold.** -/
structure Codec.Sound (c : Codec) : Prop where
  /-- A field of a column names the column at its place. -/
  column : ∀ f ∈ c.layout.keyFields ++ c.layout.valueFields, ∀ i column,
    f.source = .column i column → c.table.columns[i]? = some column
  /-- The null bitmap has room for the field. -/
  null : ∀ f ∈ c.layout.keyFields ++ c.layout.valueFields, ∀ bit ∈ f.nullBit,
    bit < c.layout.nullable
  /-- A set has no more elements than a word has bits. -/
  set : ∀ column ∈ c.table.columns, ∀ elements, column.type = .set elements →
    elements.length ≤ 64

namespace Guarded
variable {c : Codec} {src : PageSource} {p : Page}

theorem decodeField_eq (hc : c.Sound) {f : Field}
    (hf : f ∈ c.layout.keyFields ++ c.layout.valueFields) (bytes : List UInt8) :
    decodeField c f bytes = .ok (c.decodeField f bytes) := by
  unfold decodeField Codec.decodeField
  cases hs : f.source with
  | rowId => rfl
  | column i column =>
    have hcolumn := hc.column f hf i column hs
    simp only [member_eq hcolumn]
    exact decode_eq (hc.set column (List.mem_of_getElem? hcolumn)) ..

theorem readField_eq (hc : c.Sound) {f : Field}
    (hf : f ∈ c.layout.keyFields ++ c.layout.valueFields) (header : Nat) (h : Codec.Heads) :
    readField c src p header f h = c.readField src p header f h := by
  unfold readField Codec.readField readBytes Codec.readBytes
  simp only [resolve_eq, decodeField_eq hc hf]
  rfl

theorem readFields_eq (hc : c.Sound) (header : Nat) {fs : List Field}
    (hfs : fs ⊆ c.layout.keyFields ++ c.layout.valueFields) (h : Codec.Heads) :
    readFields c src p header fs h = c.readFields src p header fs h := by
  induction fs generalizing h with
  | nil => rfl
  | cons f fs ih =>
    obtain ⟨hf, hfs⟩ := List.cons_subset.mp hfs
    unfold readFields Codec.readFields
    simp only [readField_eq hc hf, ih hfs]

theorem place_eq (hc : c.Sound) {l : List (Field × Value)} {values : List Value}
    (hl : ∀ e ∈ l, e.1 ∈ c.layout.keyFields ++ c.layout.valueFields)
    (hv : values.length = c.table.columns.length) :
    place l values = .ok (Codec.place l values) := by
  induction l generalizing values with
  | nil => rfl
  | cons e l ih =>
    obtain ⟨f, v⟩ := e
    have hrest : ∀ e ∈ l, e.1 ∈ c.layout.keyFields ++ c.layout.valueFields :=
      fun e he => hl e (List.mem_cons_of_mem _ he)
    unfold place Codec.place
    cases hs : f.source with
    | rowId => exact ih hrest hv
    | column i column =>
      have hi : i < values.length := by
        have hcolumn := hc.column f (hl _ List.mem_cons_self) i column hs
        rw [hv]
        exact (List.getElem?_eq_some_iff.mp hcolumn).1
      simp only [replace_eq hi]
      exact ih hrest (by rw [List.length_set, hv])

theorem arrange_eq (hc : c.Sound) (key values : List Value) :
    arrange c key values = .ok (c.arrange key values) := by
  have hkey : ∀ e ∈ c.layout.keyFields.zip key,
      e.1 ∈ c.layout.keyFields ++ c.layout.valueFields :=
    fun e he => List.mem_append_left _ (List.of_mem_zip he).1
  have hvalue : ∀ e ∈ c.layout.valueFields.zip values,
      e.1 ∈ c.layout.keyFields ++ c.layout.valueFields :=
    fun e he => List.mem_append_right _ (List.of_mem_zip he).1
  unfold arrange Codec.arrange
  rw [place_eq hc hkey List.length_replicate]
  exact place_eq hc hvalue (by rw [Codec.length_place, List.length_replicate])

theorem readUser_eq (hc : c.Sound) (leaf : Bool) (depth : Depth) (r : Record) :
    readUser c src p leaf depth r = c.readUser src p leaf depth r := by
  unfold readUser Codec.readUser
  simp only [readFields_eq hc _ (List.subset_append_left ..),
    readFields_eq hc _ (List.subset_append_right ..), arrange_eq hc]
  rfl

/-- **No guard of a record fails**, whatever its page and its origin. -/
theorem read_eq (hc : c.Sound) (src : PageSource) (p : Page) (leaf : Bool) (depth : Depth)
    (origin : Nat) : read c src p leaf depth origin = c.read src p leaf depth origin := by
  unfold read Codec.read
  simp only [readUser_eq hc]
  rfl

end Guarded

/-! ### Pages -/

namespace Guarded
open Checksum

/-- The words of a run of whole groups of eight bytes, and of what is left of it. -/
def units (bytes : List UInt8) : Except Error (List UInt64) := do
  let aligned := bytes.length / 8 * 8
  let front ← slice bytes 0 aligned
  let tail ← after bytes aligned
  let middle := if tail.length < 4 then tail.length else tail.length - 4
  let single ← slice tail 0 middle
  let last ← after tail middle
  return words front ++ (single.map UInt8.toUInt64 ++ words last)

/-- The older checksum of the two ranges of a page. -/
def legacy (head body : List UInt8) : Except Error UInt32 := do
  let h ← units head
  let b ← units body
  return (h.foldl foldPair 0 + b.foldl foldPair 0).toUInt32

/-- Which checksum a page bears. -/
def validate (page : Buffer) : Except Error Result :=
  if page.size < pageSize then .ok ⟨.none, false, 0, 0⟩
  else do
    let stored := bigEndian (← IndexPage.bytesAt page 0 4)
    if stored = unchecked then return ⟨.none, true, stored, unchecked⟩
    else
      let whole ← IndexPage.bytesAt page 0 pageSize
      if stored = 0 ∧ whole.all (· = 0) then return ⟨.none, true, stored, 0⟩
      else
        let head ← IndexPage.bytesAt page 4 22
        let body ← IndexPage.bytesAt page headerSize (bodyEnd - headerSize)
        let crc := (Checksum.crc head ^^^ Checksum.crc body).toNat
        if stored = crc then return ⟨.crc32c, true, stored, crc⟩
        else
          let old := (← legacy head body).toNat
          if stored = old then return ⟨.legacy, true, stored, stored⟩
          else return ⟨.crc32c, false, stored, crc⟩

/-- Load a page. -/
def load (i : Image) (page : Nat) : Except Error Page := do
  let data ← i.raw page
  if i.verifyChecksums then
    let r ← validate data
    if r.valid then Page.frame page data
    else .error (.corrupt page (.checksum r.stored r.calculated))
  else Page.frame page data

theorem bytesAt_eq {b : Buffer} {start n : Nat} (h : start + n ≤ b.size) :
    IndexPage.bytesAt b start n = .ok (b.bytes start n) := if_pos h

theorem units_eq (bytes : List UInt8) : units bytes = .ok (Checksum.units bytes) := by
  unfold units Checksum.units tailUnits
  have haligned : bytes.length / 8 * 8 ≤ bytes.length := Nat.div_mul_le_self ..
  simp only
  rw [slice_zero haligned, after_eq haligned]
  simp only [bind, Except.bind]
  rw [slice_zero (by split <;> omega), after_eq (by split <;> omega)]
  rfl

theorem legacy_eq (page : Buffer) :
    legacy (headBytes page) (bodyBytes page) = .ok (Checksum.legacy page) := by
  unfold legacy
  rw [units_eq, units_eq]
  rfl

theorem validate_eq (page : Buffer) : validate page = .ok (Checksum.validate page) := by
  unfold validate Checksum.validate
  split
  · rfl
  · next h =>
    have hsize : pageSize ≤ page.size := Nat.le_of_not_lt h
    have hbody : headerSize + (bodyEnd - headerSize) ≤ pageSize := by decide
    have hword : 4 ≤ pageSize := by decide
    have hhead : 26 ≤ pageSize := by decide
    rw [bytesAt_eq (by omega), bytesAt_eq (by omega), bytesAt_eq (by omega), bytesAt_eq (by omega)]
    simp only [bind, Except.bind]
    have hlegacy := legacy_eq page
    unfold headBytes bodyBytes at hlegacy
    rw [hlegacy]
    simp only [apply_ite Except.ok]
    rfl

/-- **No guard of a page that is loaded fails.** -/
theorem load_eq (i : Image) (page : Nat) : load i page = i.load page := by
  unfold load Image.load Image.verify
  simp only [validate_eq]
  refine congrArg _ (funext fun data => ?_)
  split
  · simp only [bind, Except.bind]
    split <;> rfl
  · rfl

end Guarded

/-! ### Tables that are defined by a text -/

namespace Json

theorem exists_of_mem_mapM {f : α → Option β} {l : List α} {l' : List β}
    (h : l.mapM f = some l') {b : β} (hb : b ∈ l') : ∃ a ∈ l, f a = some b := by
  induction l generalizing l' with
  | nil =>
    cases h
    cases hb
  | cons a l ih =>
    rw [List.mapM_cons] at h
    simp only [Option.bind_eq_bind, Option.bind_eq_some_iff, Option.pure_def,
      Option.some.injEq] at h
    obtain ⟨b', hb', l'', hl, rfl⟩ := h
    rcases List.mem_cons.mp hb with rfl | hb
    · exact ⟨a, List.mem_cons_self, hb'⟩
    · obtain ⟨a', ha', e⟩ := ih hl hb
      exact ⟨a', List.mem_cons_of_mem _ ha', e⟩

theorem parse_of_columnType? {v : Json} {t : ColumnType} (h : columnType? v = some t) :
    ∃ text, ColumnType.parse text = .ok t := by
  unfold columnType? at h
  obtain ⟨s, -, h⟩ := Option.bind_eq_some_iff.mp h
  refine ⟨s.toList, ?_⟩
  cases hp : ColumnType.parse s.toList with
  | error =>
    rw [hp] at h
    cases h
  | ok t' =>
    rw [hp] at h
    cases h
    rfl

theorem parse_of_column? {v : Json} {c : Column} (h : column? v = some c) :
    ∃ text, ColumnType.parse text = .ok c.type := by
  unfold column? at h
  obtain ⟨l, -, h⟩ := Option.bind_eq_some_iff.mp h
  split at h
  · simp only [Option.bind_eq_bind, Option.bind_eq_some_iff, Option.pure_def,
      Option.some.injEq] at h
    obtain ⟨_, -, type, ht, _, -, _, -, _, -, rfl⟩ := h
    unfold required at ht
    obtain ⟨w, -, hw⟩ := Option.bind_eq_some_iff.mp ht
    exact parse_of_columnType? hw
  · cases h

theorem parse_of_table? {v : Json} {t : Table} (h : table? v = some t) :
    ∀ c ∈ t.columns, ∃ text, ColumnType.parse text = .ok c.type := by
  intro c hc
  unfold table? at h
  obtain ⟨l, -, h⟩ := Option.bind_eq_some_iff.mp h
  split at h
  · simp only [Option.bind_eq_bind, Option.bind_eq_some_iff, Option.pure_def,
      Option.some.injEq] at h
    obtain ⟨_, -, columns, hcols, _, -, rfl⟩ := h
    unfold required at hcols
    obtain ⟨w, -, hw⟩ := Option.bind_eq_some_iff.mp hcols
    unfold list? at hw
    split at hw
    · obtain ⟨i, -, hi⟩ := exists_of_mem_mapM hw hc
      exact parse_of_column? hi
    · cases hw
  · cases h

end Json

/-- **The codec of a table that is defined by a text is sound.** -/
theorem Codec.sound_of_ofJson {text : String} {t : Table} {o : Options} {c : Codec}
    (ht : Table.ofJson text = .ok t) (hc : Codec.of t o = .ok c) : c.Sound := by
  obtain ⟨-, htable, hlayout⟩ := of_eq_ok hc
  have hparse : ∀ column ∈ t.columns, ∃ text, ColumnType.parse text = .ok column.type := by
    unfold Table.ofJson at ht
    split at ht
    · cases ht
    · next t' hv =>
      obtain ⟨_, -, ht⟩ := bind_eq_ok.mp ht
      cases ht
      obtain ⟨v, -, hv⟩ := Option.bind_eq_some_iff.mp hv
      exact Json.parse_of_table? hv
  constructor
  · intro f hf i column hs
    rw [htable]
    rw [hlayout] at hf
    rcases Layout.exists_of_mem hf with rfl | ⟨j, bit, hj, rfl, -⟩
    · cases hs
    · cases hs
      exact List.getElem?_eq_getElem hj
  · intro f hf bit hbit
    rw [hlayout] at hf ⊢
    rcases Layout.exists_of_mem hf with rfl | ⟨j, b, hj, rfl, hb⟩
    · cases hbit
    · exact hb bit hbit
  · intro column hcol elements hs
    rw [htable] at hcol
    obtain ⟨text, hp⟩ := hparse column hcol
    rw [hs] at hp
    exact ColumnType.declared_of_parse hp

end Tablespace
