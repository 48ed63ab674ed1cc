import Tablespace.Page.Body
import Tablespace.Tree.Fill

/-! # Pages as JSON

The parts of a page are shown as objects whose members are in the order in which the parts lie in
the page. -/

namespace Tablespace

namespace PageKind

/-- The label under which a kind is shown. -/
def label : PageKind → String
  | .allocated => "Allocated"
  | .undoLog => "UndoLog"
  | .inode => "Inode"
  | .insertBufferFreeList => "IbufFreeList"
  | .insertBufferBitmap => "IbufBitmap"
  | .system => "Sys"
  | .transactionSystem => "TrxSys"
  | .spaceHeader => "FspHdr"
  | .extents => "Xdes"
  | .blob => "Blob"
  | .firstCompressedBlob => "ZBlob"
  | .nextCompressedBlob => "ZBlob2"
  | .compressed => "Compressed"
  | .encrypted => "Encrypted"
  | .compressedEncrypted => "CompressedEncrypted"
  | .encryptedRTree => "EncryptedRtree"
  | .dictionaryBlob => "SdiBlob"
  | .compressedDictionaryBlob => "SdiZblob"
  | .rollbackSegments => "RsegArray"
  | .lobIndex => "LobIndex"
  | .lobData => "LobData"
  | .lobFirst => "LobFirst"
  | .compressedLob _ => "Zlob"
  | .dictionary => "Sdi"
  | .rTree => "Rtree"
  | .index => "Index"
  | .unknown _ => "Unknown"

/-- A kind as JSON; one that stands for several codes shows its own. -/
def toJson (k : PageKind) : Json :=
  match k with
  | .compressedLob n | .unknown n => .record [(k.label, .nat n)]
  | _ => .text k.label

end PageKind

def PageHeader.toJson (h : PageHeader) : Json := .record [
  ("checksum", .nat h.checksum),
  ("page_number", .nat h.number),
  ("prev_page", .nat h.prevField),
  ("next_page", .nat h.nextField),
  ("lsn", .nat h.lsn),
  ("page_type", h.kind.toJson),
  ("flush_lsn", .nat h.flushLsn),
  ("space_id", .nat h.spaceId)]

def FileAddress.toJson (a : FileAddress) : Json := .record [
  ("page", .nat a.page),
  ("offset", .nat a.offset)]

def ListBase.toJson (l : ListBase) : Json := .record [
  ("len", .nat l.length),
  ("first", l.first.toJson),
  ("last", l.last.toJson)]

def ListNode.toJson (n : ListNode) : Json := .record [
  ("prev", n.prev.toJson),
  ("next", n.next.toJson)]

def SpaceHeader.toJson (h : SpaceHeader) : Json := .record [
  ("space_id", .nat h.spaceId),
  ("size", .nat h.size),
  ("free_limit", .nat h.freeLimit),
  ("flags", .nat h.flags),
  ("frag_n_used", .nat h.fragmentsUsed),
  ("free", h.free.toJson),
  ("free_frag", h.freeFragments.toJson),
  ("full_frag", h.fullFragments.toJson),
  ("next_seg_id", .nat h.nextSegmentId),
  ("seg_inodes_full", h.fullInodes.toJson),
  ("seg_inodes_free", h.freeInodes.toJson)]

def ExtentState.label : ExtentState → String
  | .free => "Free"
  | .freeFragments => "FreeFrag"
  | .fullFragments => "FullFrag"
  | .segment => "Fseg"

def Extent.toJson (e : Extent) : Json := .record [
  ("segment_id", .nat e.segmentId),
  ("list_node", e.node.toJson),
  ("state", .text e.state.label),
  ("bitmap", .list (fun b => .nat b.toNat) e.bitmap)]

def ExtentPage.toJson (p : ExtentPage) : Json := .record [
  ("header", .option SpaceHeader.toJson p.header),
  ("extents", .list Extent.toJson p.extents)]

def Inode.toJson (i : Inode) : Json := .record [
  ("slot", .nat i.slot),
  ("segment_id", .nat i.segmentId),
  ("not_full_n_used", .nat i.notFullUsed),
  ("free", i.free.toJson),
  ("not_full", i.notFull.toJson),
  ("full", i.full.toJson),
  ("magic", .nat i.magic),
  ("frag_pages", .list .nat i.fragments)]

def InodePage.toJson (p : InodePage) : Json := .record [
  ("list_node", p.node.toJson),
  ("entries", .list Inode.toJson p.inodes)]

def IndexHeader.toJson (h : IndexHeader) : Json := .record [
  ("n_dir_slots", .nat h.slots),
  ("heap_top", .nat h.heapTop),
  ("n_heap_raw", .nat h.heapField),
  ("free", .nat h.free),
  ("garbage", .nat h.garbage),
  ("last_insert", .nat h.lastInsert),
  ("direction", .nat h.direction),
  ("n_direction", .nat h.directionRun),
  ("n_recs", .nat h.records),
  ("max_trx_id", .nat h.maxTransaction),
  ("level", .nat h.level),
  ("index_id", .nat h.indexId)]

def SegmentAddress.toJson (a : SegmentAddress) : Json := .record [
  ("space_id", .nat a.spaceId),
  ("page_no", .nat a.page),
  ("offset", .nat a.offset)]

def IndexPage.toJson (x : IndexPage) : Json := .record [
  ("page_number", .nat x.number),
  ("header", x.header.toJson),
  ("leaf_segment", x.leafSegment.toJson),
  ("internal_segment", x.internalSegment.toJson),
  ("prev_page", .option .nat x.prev),
  ("next_page", .option .nat x.next),
  ("dir_slots", .list .nat x.slots.toList)]

def BlobPart.toJson (b : BlobPart) : Json := .record [
  ("page_number", .nat b.page),
  ("offset", .nat b.offset),
  ("part_len", .nat b.length),
  ("next_page", .option .nat b.next)]

/-- **A page body as JSON**: its kind, and what it holds unless it was never used. -/
def PageBody.toJson (b : PageBody) : Json :=
  let tagged (kind : String) (body : Json) : Json := .record [("kind", .text kind), ("body", body)]
  match b with
  | .spaceHeader p => tagged "FspHdr" p.toJson
  | .extents p => tagged "Xdes" p.toJson
  | .inode p => tagged "Inode" p.toJson
  | .index p => tagged "Index" p.toJson
  | .blob p => tagged "Blob" p.toJson
  | .allocated => .record [("kind", .text "Allocated")]
  | .other k => tagged "Other" k.toJson

def FillStats.toJson (s : FillStats) : Json := .record [
  ("pages", .nat s.pages),
  ("leaf_pages", .nat s.leafPages),
  ("internal_pages", .nat s.internalPages),
  ("records", .nat s.records),
  ("used_bytes", .nat s.usedBytes),
  ("fill_ratio", .double s.ratio)]

/-- A page as JSON: its header and its body. -/
def pageReport (p : Page) (body : PageBody) : Json := .record [
  ("page_number", .nat p.number),
  ("page_type", .text p.kind.name),
  ("header", p.header.toJson),
  ("decoded", body.toJson)]

end Tablespace
