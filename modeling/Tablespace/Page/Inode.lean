import Tablespace.Page.Extent

/-! # Segment inodes

A page of inodes has 85 slots, each of which may describe a segment: the lists of its extents and
up to 32 pages that it owns one by one.

* `Inode`: a segment. `InodePage`: the segments of a page, up to the first unused slot. -/

namespace Tablespace

/-- **A segment.** -/
structure Inode where
  slot : Nat
  segmentId : Nat
  notFullUsed : Nat
  free : ListBase
  notFull : ListBase
  full : ListBase
  magic : Nat
  /-- The pages that the segment owns one by one. -/
  fragments : List Nat
  deriving DecidableEq

namespace Inode

/-- The bytes of a slot. -/
def size : Nat := 192

/-- The number that marks a slot in use. -/
def marker : Nat := 97937874

/-- The places for pages that a segment owns one by one. -/
def fragmentSlots : Nat := 32

/-- Read `n` page numbers, of which those that stand for no page are left out. -/
def readFragments : Nat → Read (List Nat)
  | 0 => return []
  | n + 1 => do
    let p ← Read.u32
    let rest ← readFragments n
    return (pageLink p).toList ++ rest

/-- Read the slot of a number. -/
def read (slot : Nat) : Read Inode := do
  let segmentId ← Read.u64
  let notFullUsed ← Read.u32
  let free ← ListBase.read
  let notFull ← ListBase.read
  let full ← ListBase.read
  let magic ← Read.u32
  let fragments ← readFragments fragmentSlots
  return { slot, segmentId, notFullUsed, free, notFull, full, magic, fragments }

/-- The extents in the three lists of a segment. Their sum has 32 bits, as each length has. -/
def extentCount (i : Inode) : Nat :=
  (i.free.length + i.notFull.length + i.full.length) % 0x100000000

/-- Whether a slot describes no segment. -/
def isUnused (i : Inode) : Bool := i.segmentId = 0 || i.magic = 0

end Inode

/-- **A page of inodes.** -/
structure InodePage where
  node : ListNode
  inodes : List Inode
  deriving DecidableEq

namespace InodePage

/-- The offset of the first slot. -/
def arrayOffset : Nat := headerSize + 12

/-- The slots of a page. -/
def slots : Nat := 85

/-- The segments of up to `n` slots from one on, up to the first that is unused. A slot in use
bears the marker. -/
def inodesFrom (p : Page) (slot : Nat) : Nat → Except Error (List Inode)
  | 0 => .ok []
  | n + 1 => do
    let i ← p.data.readFrom (arrayOffset + slot * Inode.size) (Inode.read slot)
    if i.isUnused then .ok []
    else if i.magic = Inode.marker then
      return i :: (← inodesFrom p (slot + 1) n)
    else p.damaged (.inodeMagic slot i.magic i.segmentId)

/-- **The segments of a page.** -/
def ofPage (p : Page) : Except Error InodePage := do
  p.expect .inode
  let node ← p.data.readFrom headerSize ListNode.read
  let inodes ← inodesFrom p 0 slots
  return { node, inodes }

end InodePage
end Tablespace
