import Tablespace.Page.Index
import Tablespace.Page.Inode
import Tablespace.Page.Overflow

/-! # Page bodies

The body of a page is decoded by the kind of the page. -/

namespace Tablespace

/-- **The body of a page.** -/
inductive PageBody
  | spaceHeader (page : ExtentPage)
  | extents (page : ExtentPage)
  | inode (page : InodePage)
  | index (page : IndexPage)
  | blob (part : BlobPart)
  | allocated
  | other (kind : PageKind)

/-- **The body of a page.** -/
def Page.decode (p : Page) : Except Error PageBody :=
  match p.kind with
  | .spaceHeader => .spaceHeader <$> ExtentPage.ofPage p
  | .extents => .extents <$> ExtentPage.ofPage p
  | .inode => .inode <$> InodePage.ofPage p
  | .index | .dictionary => .index <$> IndexPage.ofPage p
  | .blob | .dictionaryBlob => .blob <$> BlobPart.ofPage p headerSize
  | .allocated => .ok .allocated
  | kind => .ok (.other kind)

end Tablespace
