import Tablespace.Binary.Format
import Tablespace.Tree.Reader

/-! # Fill

The fill of a page is the share of its bytes that are in use.

* `PageFill`: the fill of a page. `FillStats`: that of many.
* `Reader.pageFill`, `Reader.fillStats`: the fill of a page and of the clustered index. -/

namespace Tablespace

/-- **The fill of an index page.** -/
structure PageFill where
  page : Nat
  level : Nat
  records : Nat
  usedBytes : Nat
  /-- The double nearest to the share of the bytes in use. -/
  ratio : UInt64
  deriving DecidableEq

/-- The share of the bytes of some pages. -/
def fillRatio (usedBytes pages : Nat) : UInt64 := Double.ratio usedBytes (pages * pageSize)

/-- The fill of an index page. -/
def IndexPage.fill (x : IndexPage) : PageFill where
  page := x.number
  level := x.level
  records := x.header.records
  usedBytes := x.usedBytes
  ratio := fillRatio x.usedBytes 1

/-- **The fill of many pages.** -/
structure FillStats where
  pages : Nat
  leafPages : Nat
  internalPages : Nat
  records : Nat
  usedBytes : Nat
  ratio : UInt64
  deriving DecidableEq

namespace FillStats

/-- The fill of no pages. -/
def empty : FillStats := ⟨0, 0, 0, 0, 0, 0⟩

/-- The fill with one more page. -/
def add (s : FillStats) (f : PageFill) : FillStats where
  pages := s.pages + 1
  leafPages := s.leafPages + (if f.level = 0 then 1 else 0)
  internalPages := s.internalPages + (if f.level = 0 then 0 else 1)
  records := s.records + f.records
  usedBytes := s.usedBytes + f.usedBytes
  ratio := fillRatio (s.usedBytes + f.usedBytes) (s.pages + 1)

/-- The fill of the pages of a list. -/
def ofList (l : List PageFill) : FillStats := l.foldl add empty

end FillStats

namespace Reader

/-- **The fill of a page.** -/
def pageFill (r : Reader) (page : Nat) : Except Error PageFill := do
  let p ← r.image.load page
  let x ← IndexPage.ofPage p
  return x.fill

/-- The fill of a page, if it belongs to the clustered index. Pages of other kinds are not loaded
beyond their header. -/
def fillOf (r : Reader) (page : Nat) : Except Error (Option PageFill) := do
  let header ← r.image.loadHeader page
  if header.kind = .index then
    let p ← r.image.load page
    let x ← IndexPage.ofPage p
    return if x.header.indexId = r.indexId then some x.fill else none
  else return none

/-- **The fill of the clustered index**, found among all pages, whose numbers have 32 bits. -/
def fillStats (r : Reader) : Except Error FillStats := do
  let fills ← (List.range (r.pageCount % 0x100000000)).mapM r.fillOf
  return .ofList (fills.filterMap id)

end Reader
end Tablespace
