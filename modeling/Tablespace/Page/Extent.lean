import Tablespace.Page.Frame

/-! # Space headers and extents

The first page of a tablespace begins with the header of the space. It and the pages that take its
place further on describe extents of 64 pages each.

* `FileAddress`, `ListBase`, `ListNode`: the parts of the lists that run through pages.
* `SpaceHeader`: the header of the space. `Extent`: the descriptor of an extent.
* `ExtentPage`: a page of descriptors, up to the first that is unused. -/

namespace Tablespace

/-- **A place in the file.** -/
structure FileAddress where
  page : Nat
  offset : Nat
  deriving DecidableEq

namespace FileAddress

/-- Read a place. -/
def read : Read FileAddress := do
  let page ← Read.u32
  let offset ← Read.u16
  return { page, offset }

/-- Whether the place is nowhere. -/
def isNull (a : FileAddress) : Bool := a.page = noPage

end FileAddress

/-- **The base of a list.** -/
structure ListBase where
  length : Nat
  first : FileAddress
  last : FileAddress
  deriving DecidableEq

/-- Read the base of a list. -/
def ListBase.read : Read ListBase := do
  let length ← Read.u32
  let first ← FileAddress.read
  let last ← FileAddress.read
  return { length, first, last }

/-- **A node of a list.** -/
structure ListNode where
  prev : FileAddress
  next : FileAddress
  deriving DecidableEq

/-- Read a node of a list. -/
def ListNode.read : Read ListNode := do
  let prev ← FileAddress.read
  let next ← FileAddress.read
  return { prev, next }

/-- **The header of a space.** -/
structure SpaceHeader where
  spaceId : Nat
  size : Nat
  freeLimit : Nat
  flags : Nat
  fragmentsUsed : Nat
  free : ListBase
  freeFragments : ListBase
  fullFragments : ListBase
  nextSegmentId : Nat
  fullInodes : ListBase
  freeInodes : ListBase
  deriving DecidableEq

namespace SpaceHeader

/-- Read the header of a space, in which four bytes are unused. -/
def read : Read SpaceHeader := do
  let spaceId ← Read.u32
  Read.skip 4
  let size ← Read.u32
  let freeLimit ← Read.u32
  let flags ← Read.u32
  let fragmentsUsed ← Read.u32
  let free ← ListBase.read
  let freeFragments ← ListBase.read
  let fullFragments ← ListBase.read
  let nextSegmentId ← Read.u64
  let fullInodes ← ListBase.read
  let freeInodes ← ListBase.read
  return { spaceId, size, freeLimit, flags, fragmentsUsed, free, freeFragments, fullFragments,
           nextSegmentId, fullInodes, freeInodes }

/-- The header at the start of the body of a page. -/
def ofPage (p : Page) : Except Error SpaceHeader := p.data.readFrom headerSize read

end SpaceHeader

/-- **The state of an extent.** -/
inductive ExtentState
  | free
  | freeFragments
  | fullFragments
  | segment
  deriving DecidableEq, Repr

/-- The state of a code. -/
def ExtentState.ofCode? : Nat → Option ExtentState
  | 1 => some .free
  | 2 => some .freeFragments
  | 3 => some .fullFragments
  | 4 => some .segment
  | _ => none

/-- **The descriptor of an extent.** The bitmap has two bits for each page, the lower of which
tells that the page is free. -/
structure Extent where
  segmentId : Nat
  node : ListNode
  state : ExtentState
  bitmap : List UInt8
  deriving DecidableEq

namespace Extent

/-- The pages of an extent. -/
def pages : Nat := 64

/-- Read a descriptor; one whose state has no meaning is unused. -/
def read? : Read (Option Extent) := do
  let segmentId ← Read.u64
  let node ← ListNode.read
  match ExtentState.ofCode? (← Read.u32) with
  | none => return none
  | some state =>
    let bitmap ← Read.bytes 16
    return some { segmentId, node, state, bitmap }

/-- Whether a page of the extent is free. -/
def isFree (e : Extent) (i : Nat) : Bool :=
  i < pages && ((e.bitmap.getD (2 * i / 8) 0).toNat.testBit (2 * i % 8))

/-- How many pages of the extent are free. -/
def freePages (e : Extent) : Nat := (List.range pages).countP e.isFree

end Extent

/-- **A page of descriptors**, with the header of the space on the first page of the file. -/
structure ExtentPage where
  header : Option SpaceHeader
  extents : List Extent
  deriving DecidableEq

namespace ExtentPage

/-- The offset of the first descriptor. -/
def arrayOffset : Nat := headerSize + 112

/-- The most descriptors on a page. -/
def maxExtents : Nat := 256

/-- Read up to `n` descriptors, up to the first that is unused. -/
def readExtents : Nat → Read (List Extent)
  | 0 => return []
  | n + 1 => do
    match ← Extent.read? with
    | none => return []
    | some e => return e :: (← readExtents n)

/-- **The descriptors of a page** of either kind that has them. -/
def ofPage (p : Page) : Except Error ExtentPage := do
  let header ← match p.kind with
    | .spaceHeader => some <$> SpaceHeader.ofPage p
    | .extents => .ok none
    | found => p.damaged (.notExtents found)
  let extents ← p.data.readFrom arrayOffset (readExtents maxExtents)
  return { header, extents }

end ExtentPage
end Tablespace
