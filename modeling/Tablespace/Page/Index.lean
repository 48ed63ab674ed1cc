import Tablespace.Page.Frame

/-! # Index pages

An index page holds records in a heap that grows upwards, and downwards from its end a directory of
slots. The slots name records in the order of their keys, the first the infimum and the last the
supremum, two system records at fixed places.

* `IndexHeader`: the header of an index page. `IndexPage`: a page whose directory is sound.
* `IndexPage.ofPage`: the index page that a page is.
* `IndexPage.usedBytes`: the bytes in use, of which `fillRatio` is the share. -/

namespace Tablespace

/-- **The header of an index page.** -/
structure IndexHeader where
  slots : Nat
  heapTop : Nat
  heapField : Nat
  free : Nat
  garbage : Nat
  lastInsert : Nat
  direction : Nat
  directionRun : Nat
  records : Nat
  maxTransaction : Nat
  level : Nat
  indexId : Nat
  deriving DecidableEq

namespace IndexHeader

/-- The bytes of an index header. -/
def size : Nat := 36

/-- Read an index header. -/
def read : Read IndexHeader := do
  let slots ← Read.u16
  let heapTop ← Read.u16
  let heapField ← Read.u16
  let free ← Read.u16
  let garbage ← Read.u16
  let lastInsert ← Read.u16
  let direction ← Read.u16
  let directionRun ← Read.u16
  let records ← Read.u16
  let maxTransaction ← Read.u64
  let level ← Read.u16
  let indexId ← Read.u64
  return { slots, heapTop, heapField, free, garbage, lastInsert, direction, directionRun, records,
           maxTransaction, level, indexId }

/-- The index header of a page. -/
def ofPage (p : Page) : Except Error IndexHeader := p.data.readFrom headerSize read

/-- How many records the heap holds, the system records included. -/
def heapRecords (h : IndexHeader) : Nat := h.heapField % 0x8000

/-- Whether records are in the compact format. -/
def isCompact (h : IndexHeader) : Bool := h.heapField.testBit 15

/-- The name of the direction of the last insertions. -/
def directionName (h : IndexHeader) : String :=
  match h.direction with
  | 1 => "Left"
  | 2 => "Right"
  | 3 => "Same Record"
  | 4 => "Same Page"
  | 5 => "No Direction"
  | _ => "Unknown"

end IndexHeader

/-- **Where the inode of a segment is.** -/
structure SegmentAddress where
  spaceId : Nat
  page : Nat
  offset : Nat
  deriving DecidableEq

/-- Read where the inode of a segment is. -/
def SegmentAddress.read : Read SegmentAddress := do
  let spaceId ← Read.u32
  let page ← Read.u32
  let offset ← Read.u16
  return { spaceId, page, offset }

/-- **An index page.** -/
structure IndexPage where
  number : Nat
  header : IndexHeader
  leafSegment : SegmentAddress
  internalSegment : SegmentAddress
  prev : Option Nat
  next : Option Nat
  /-- The origins of the records that the slots name, in the order of their keys. -/
  slots : Array Nat
  deriving DecidableEq

namespace IndexPage

/-- The origin of the infimum. -/
def infimum : Nat := 99

/-- The origin of the supremum. -/
def supremum : Nat := 112

/-- The bytes of the infimum. -/
def infimumLiteral : List UInt8 := [0x69, 0x6E, 0x66, 0x69, 0x6D, 0x75, 0x6D, 0]

/-- The bytes of the supremum. -/
def supremumLiteral : List UInt8 := [0x73, 0x75, 0x70, 0x72, 0x65, 0x6D, 0x75, 0x6D]

/-- The `n` bytes from an offset on, which lie in the buffer if all is well. -/
def bytesAt (b : Buffer) (start n : Nat) : Except Error (List UInt8) :=
  if start + n ≤ b.size then .ok (b.bytes start n) else .error (.stray start)

/-- The records that the slots name, from slot `i` on. They lie between the infimum and the
directory. -/
def slotsFrom (p : Page) (directory i : Nat) : Nat → Except Error (List Nat)
  | 0 => .ok []
  | n + 1 => do
    let origin ← p.data.readFrom (bodyEnd - 2 * (i + 1)) Read.u16
    if origin < infimum ∨ directory ≤ origin then p.damaged (.directorySlot i origin)
    else return origin :: (← slotsFrom p directory (i + 1) n)

/-- The slots of a directory, which is as large as its header says and leaves room for the
heap. -/
def directoryOf (p : Page) (h : IndexHeader) : Except Error (Array Nat) := do
  if bodyEnd < 2 * h.slots then p.damaged .directoryLength
  else
    let directory := bodyEnd - 2 * h.slots
    if h.slots < 2 ∨ directory < h.heapTop then p.damaged (.directory h.slots h.heapTop)
    else
      let slots := (← slotsFrom p directory 0 h.slots).toArray
      match slots[0]?, slots[h.slots - 1]? with
      | some first, some last =>
        if first = infimum ∧ last = supremum then return slots
        else p.damaged .directoryEnds
      | _, _ => .error (.stray h.slots)

/-- **The index page that a page is.** The pages of the dictionary are index pages too. -/
def ofPage (p : Page) : Except Error IndexPage := do
  if p.kind ≠ .index ∧ p.kind ≠ .dictionary then p.damaged (.kind .index p.kind)
  else
    let header ← IndexHeader.ofPage p
    if !header.isCompact then .error (.unsupported (.redundantRows p.number))
    else
      let (leafSegment, internalSegment) ← p.data.readFrom (headerSize + IndexHeader.size) do
        let leaf ← SegmentAddress.read
        let internal ← SegmentAddress.read
        return (leaf, internal)
      if (← bytesAt p.data infimum 8) ≠ infimumLiteral then p.damaged .infimumLiteral
      else if (← bytesAt p.data supremum 8) ≠ supremumLiteral then p.damaged .supremumLiteral
      else
        let slots ← directoryOf p header
        return { number := p.number, header, leafSegment, internalSegment
                 prev := p.header.prev?, next := p.header.next?, slots }

/-- The level of a page, zero for leaves. -/
def level (x : IndexPage) : Nat := x.header.level

/-- Whether a page is a leaf. -/
def isLeaf (x : IndexPage) : Bool := x.level = 0

/-- Whether a page has no siblings, as a root has none. -/
def isRoot (x : IndexPage) : Bool := x.prev.isNone && x.next.isNone

/-- The bytes in use: heap, trailer and directory without the deleted records. -/
def usedBytes (x : IndexPage) : Nat :=
  x.header.heapTop + 8 + 2 * x.slots.size - x.header.garbage

/-- The most steps along the chain of records. -/
def maxSteps (x : IndexPage) : Nat := x.header.heapRecords + 2

end IndexPage
end Tablespace
