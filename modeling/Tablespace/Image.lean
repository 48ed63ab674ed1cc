import Tablespace.Options
import Tablespace.Page.Checksum

/-! # Images

An image is the bytes of a file, cut into pages that are loaded by number.

* `Image.ofBuffer`: the image of the bytes of a file.
* `Image.load`, `Image.loadHeader`: a whole page, and the header of a page alone. -/

namespace Tablespace

/-- **The bytes of a file of pages.** -/
structure Image where
  data : Buffer
  verifyChecksums : Bool

namespace Image

/-- **The image of the bytes of a file**, whole pages unless the options allow a rest. -/
def ofBuffer (o : Options) (data : Buffer) : Except Error Image :=
  if o.validateFileSize ∧ data.size % pageSize ≠ 0 then
    .error (.format (.fileSize data.size pageSize))
  else .ok { data, verifyChecksums := o.verifyChecksums }

/-- The number of whole pages. -/
def pageCount (i : Image) : Nat := i.data.size / pageSize

/-- The bytes of a page. -/
def raw (i : Image) (page : Nat) : Except Error Buffer :=
  if page < i.pageCount then .ok (i.data.slice (page * pageSize) pageSize)
  else .error (.argument (.pageNumber page i.pageCount))

/-- Fail if a page bears a checksum other than its own. -/
def verify (page : Nat) (data : Buffer) : Except Error Unit :=
  let r := Checksum.validate data
  if r.valid then .ok () else .error (.corrupt page (.checksum r.stored r.calculated))

/-- **Load a page.** -/
def load (i : Image) (page : Nat) : Except Error Page := do
  let data ← i.raw page
  if i.verifyChecksums then verify page data
  Page.frame page data

/-- **Load the header of a page**, which is not checked. -/
def loadHeader (i : Image) (page : Nat) : Except Error PageHeader := do
  let data ← i.raw page
  data.readFrom 0 PageHeader.read

end Image
end Tablespace
