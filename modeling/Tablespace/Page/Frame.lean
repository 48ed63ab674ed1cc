import Tablespace.Error

/-! # Page frames

A page is a run of 16384 bytes with a header of 38 bytes before its body and a trailer of 8 bytes
after it. The low half of the log sequence number stands in both.

* `PageHeader`, `PageTrailer`: header and trailer.
* `Page`: a page whose two ends agree. `Page.frame`: the page that some bytes are. -/

namespace Tablespace

/-- The bytes of a page. -/
def pageSize : Nat := 16384

/-- The bytes of a page header, and so the offset of the body. -/
def headerSize : Nat := 38

/-- The offset of the trailer, and so the end of the body. -/
def bodyEnd : Nat := pageSize - 8

/-- The number that stands for no page. -/
def noPage : Nat := 0xFFFFFFFF

/-- A page number, unless it stands for no page. -/
def pageLink (n : Nat) : Option Nat := if n = noPage then none else some n

/-- **The header of a page.** -/
structure PageHeader where
  checksum : Nat
  number : Nat
  prevField : Nat
  nextField : Nat
  lsn : Nat
  kind : PageKind
  flushLsn : Nat
  spaceId : Nat
  deriving DecidableEq

namespace PageHeader

/-- Read a header. -/
def read : Read PageHeader := do
  let checksum ← Read.u32
  let number ← Read.u32
  let prevField ← Read.u32
  let nextField ← Read.u32
  let lsn ← Read.u64
  let kind ← PageKind.ofCode <$> Read.u16
  let flushLsn ← Read.u64
  let spaceId ← Read.u32
  return { checksum, number, prevField, nextField, lsn, kind, flushLsn, spaceId }

/-- The page to the left. -/
def prev? (h : PageHeader) : Option Nat := pageLink h.prevField

/-- The page to the right. -/
def next? (h : PageHeader) : Option Nat := pageLink h.nextField

end PageHeader

/-- **The trailer of a page.** -/
structure PageTrailer where
  checksum : Nat
  lsnLow : Nat
  deriving DecidableEq

/-- Read a trailer. -/
def PageTrailer.read : Read PageTrailer := do
  let checksum ← Read.u32
  let lsnLow ← Read.u32
  return { checksum, lsnLow }

/-- **A page**: the number that it was loaded as, its two ends, and its bytes. -/
structure Page where
  number : Nat
  header : PageHeader
  trailer : PageTrailer
  data : Buffer
  size_data : data.size = pageSize

/-- What gives pages by number. -/
abbrev PageSource : Type := Nat → Except Error Page

/-- A read at an absolute position of a buffer. -/
def Buffer.readFrom (b : Buffer) (position : Nat) (r : Read α) : Except Error α :=
  (Read.from? b position r).mapError .read

namespace Page

/-- **The page that some bytes are**, if there are as many as there should be and the log sequence
numbers agree. -/
def frame (number : Nat) (data : Buffer) : Except Error Page :=
  if h : data.size = pageSize then do
    let header ← data.readFrom 0 PageHeader.read
    let trailer ← data.readFrom bodyEnd PageTrailer.read
    let low := header.lsn % 0x100000000
    if low = trailer.lsnLow then
      return { number, header, trailer, data, size_data := h }
    else .error (.corrupt number (.lsnMismatch low trailer.lsnLow))
  else .error (.corrupt number (.pageLength data.size pageSize))

/-- The kind of a page. -/
def kind (p : Page) : PageKind := p.header.kind

/-- The bytes between header and trailer. -/
def body (p : Page) : Buffer := p.data.slice headerSize (bodyEnd - headerSize)

/-- A failure that blames the page. -/
def damaged (p : Page) (cause : Damage) : Except Error α := .error (.corrupt p.number cause)

/-- Fail unless the page is of a kind. -/
def expect (p : Page) (kind : PageKind) : Except Error Unit :=
  if p.kind = kind then .ok () else p.damaged (.kind kind p.kind)

end Page
end Tablespace
