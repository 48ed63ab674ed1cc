/-! # Kinds of pages

The kind of a page is a code in its header. `PageKind.code` and `PageKind.ofCode` are inverse. -/

namespace Tablespace

/-- **The kind of a page.** -/
inductive PageKind
  | allocated
  | undoLog
  | inode
  | insertBufferFreeList
  | insertBufferBitmap
  | system
  | transactionSystem
  | spaceHeader
  | extents
  | blob
  | firstCompressedBlob
  | nextCompressedBlob
  | compressed
  | encrypted
  | compressedEncrypted
  | encryptedRTree
  | dictionaryBlob
  | compressedDictionaryBlob
  | rollbackSegments
  | lobIndex
  | lobData
  | lobFirst
  | compressedLob (code : Nat)
  | dictionary
  | rTree
  | index
  | unknown (code : Nat)
  deriving DecidableEq

namespace PageKind

/-- The kind of a code. -/
def ofCode (n : Nat) : PageKind :=
  match n with
  | 0 => .allocated
  | 2 => .undoLog
  | 3 => .inode
  | 4 => .insertBufferFreeList
  | 5 => .insertBufferBitmap
  | 6 => .system
  | 7 => .transactionSystem
  | 8 => .spaceHeader
  | 9 => .extents
  | 10 => .blob
  | 11 => .firstCompressedBlob
  | 12 => .nextCompressedBlob
  | 14 => .compressed
  | 15 => .encrypted
  | 16 => .compressedEncrypted
  | 17 => .encryptedRTree
  | 18 => .dictionaryBlob
  | 19 => .compressedDictionaryBlob
  | 21 => .rollbackSegments
  | 22 => .lobIndex
  | 23 => .lobData
  | 24 => .lobFirst
  | 17853 => .dictionary
  | 17854 => .rTree
  | 17855 => .index
  | n => if 25 ≤ n ∧ n ≤ 29 then .compressedLob n else .unknown n

/-- The code of a kind. -/
def code : PageKind → Nat
  | .allocated => 0
  | .undoLog => 2
  | .inode => 3
  | .insertBufferFreeList => 4
  | .insertBufferBitmap => 5
  | .system => 6
  | .transactionSystem => 7
  | .spaceHeader => 8
  | .extents => 9
  | .blob => 10
  | .firstCompressedBlob => 11
  | .nextCompressedBlob => 12
  | .compressed => 14
  | .encrypted => 15
  | .compressedEncrypted => 16
  | .encryptedRTree => 17
  | .dictionaryBlob => 18
  | .compressedDictionaryBlob => 19
  | .rollbackSegments => 21
  | .lobIndex => 22
  | .lobData => 23
  | .lobFirst => 24
  | .dictionary => 17853
  | .rTree => 17854
  | .index => 17855
  | .compressedLob n | .unknown n => n

/-- The name of a kind. -/
def name : PageKind → String
  | .allocated => "ALLOCATED"
  | .undoLog => "UNDO_LOG"
  | .inode => "INODE"
  | .insertBufferFreeList => "IBUF_FREE_LIST"
  | .insertBufferBitmap => "IBUF_BITMAP"
  | .system => "SYS"
  | .transactionSystem => "TRX_SYS"
  | .spaceHeader => "FSP_HDR"
  | .extents => "XDES"
  | .blob => "BLOB"
  | .firstCompressedBlob => "ZBLOB"
  | .nextCompressedBlob => "ZBLOB2"
  | .compressed => "COMPRESSED"
  | .encrypted => "ENCRYPTED"
  | .compressedEncrypted => "COMPRESSED_ENCRYPTED"
  | .encryptedRTree => "ENCRYPTED_RTREE"
  | .dictionaryBlob => "SDI_BLOB"
  | .compressedDictionaryBlob => "SDI_ZBLOB"
  | .rollbackSegments => "RSEG_ARRAY"
  | .lobIndex => "LOB_INDEX"
  | .lobData => "LOB_DATA"
  | .lobFirst => "LOB_FIRST"
  | .compressedLob _ => "ZLOB"
  | .dictionary => "SDI"
  | .rTree => "RTREE"
  | .index => "INDEX"
  | .unknown _ => "UNKNOWN"

/-- Pages whose body can be read only once it is decompressed or decrypted. -/
def isTransformed : PageKind → Bool
  | .compressed | .encrypted | .compressedEncrypted | .encryptedRTree => true
  | _ => false

/-- Pages of large values in a format other than plain chains. -/
def isForeignLob : PageKind → Bool
  | .firstCompressedBlob | .nextCompressedBlob | .compressedDictionaryBlob => true
  | .lobFirst | .lobData | .lobIndex | .compressedLob _ => true
  | _ => false

theorem code_ofCode (n : Nat) : (ofCode n).code = n := by
  unfold ofCode
  split
  all_goals first | rfl | (split <;> rfl)

end PageKind
end Tablespace
