import Tablespace.Bytes.Cursor
import Tablespace.Column.Kind
import Tablespace.Page.Kind
import Tablespace.Record.Status
import Tablespace.Text.Numeral

/-! # Errors

An error is a cause. Its kind tells whom it blames: the file system, a text, the caller, a read
past the end of a buffer, a damaged page, or a format that is not read here.

* `Error`: the causes, a type for each group of them.
* `Error.kind`, `Error.message`: the kind of an error, and its text. -/

namespace Tablespace

/-- **Why a file could not be had.** -/
inductive FileError
  | cannotOpen (path : String)
  | cannotRead (path : String)
  | notText (path : String)

/-- **What is wrong with a text**, or with the bytes of something that has no page. -/
inductive FormatError
  | typeArgument (text : String)
  | elementStart (found : Char)
  | elementEnd (found : Char)
  | elementOpen
  | unbalancedType (text : String)
  | fractionDigits (n : Nat)
  | missingLength (name : String)
  | decimalShape (precision scale : Nat)
  | setSize
  | bitWidth (n : Nat)
  | unknownType (name : String)
  | tableDefinition
  | options
  | fileSize (size pageSize : Nat)
  | recordStatus (code origin : Nat)

/-- **What is wrong with an argument.** -/
inductive ArgumentError
  | literal (text : String) (type : ColumnType) (column : String)
  | pageNumber (page count : Nat)
  | noColumns (table : String)
  | duplicateColumn (column : String)
  | unknownKeyColumn (column : String)
  | repeatedKeyColumn (column : String)
  | columnIndex (index count : Nat)
  | keyLength (expected given : Nat)
  | boundLength (given limit : Nat)
  | boundsReversed
  | rowId (text : String)
  | singleRowId
  | keyValues (given limit : Nat)
  | unknownColumn (name : String)
  | filter (text : String)

/-- **Why the header of a record cannot be read.** -/
inductive HeaderError
  | outOfBounds (offset length size : Nat)
  | status (code origin : Nat)

/-- **What is wrong with a page.** -/
inductive Damage
  | pageLength (length expected : Nat)
  | lsnMismatch (header trailer : Nat)
  | checksum (stored calculated : Nat)
  | kind (expected found : PageKind)
  | notExtents (found : PageKind)
  | infimumLiteral
  | supremumLiteral
  | directoryLength
  | directory (slots heapTop : Nat)
  | directorySlot (slot origin : Nat)
  | directoryEnds
  | inodeMagic (slot magic segment : Nat)
  | blobOverrun (length : Nat)
  | blobCycle
  | blobEmpty
  | blobEnd (length total : Nat)
  | recordHeader (origin : Nat) (cause : HeaderError)
  | recordStatus (status : Status) (origin : Nat) (leaf : Bool)
  | recordStart
  | nullBitmap (origin : Nat)
  | nextOffset (origin : Nat) (offset : Int)
  | pointerLength (length : Nat)
  | chainUnending
  | chainEnds
  | noNodePointers
  | infimumAlone
  | noChild (origin : Nat)
  | childLevel (child parent : Nat)
  | notLeaf (level : Nat)
  | foreignIndex (found expected : Nat)
  | recordCount (declared found : Nat)
  | siblingCycle
  | noRoot (pages : Nat)
  | rootSiblings
  | rootKind (found : PageKind)

/-- **What is not read here.** -/
inductive FormatUnsupported
  | redundantRows (page : Nat)
  | pageKind (page : Nat) (kind : PageKind)
  | largeKeyColumn (column : String)

/-- **An error.** The last constructor stands for an access that no check before it rules out: one
out of range, or one that cuts a character. -/
inductive Error
  | file (cause : FileError)
  | format (cause : FormatError)
  | argument (cause : ArgumentError)
  | read (cause : ReadError)
  | corrupt (page : Nat) (cause : Damage)
  | unsupported (cause : FormatUnsupported)
  | stray (offset : Nat)

/-- **The kind of an error.** -/
inductive ErrorKind
  | io
  | parse
  | argument
  | bounds
  | corrupt
  | unsupported
  | stray
  deriving DecidableEq, Repr

/-! ### Texts -/

/-- Eight hexadecimal digits behind their marker. -/
def hexWord (n : Nat) : String := "0x" ++ String.ofList (Numeral.hexPadded 8 n)

def FileError.message : FileError → String
  | .cannotOpen path => s!"Cannot open {path}: No such file or directory (os error 2)"
  | .cannotRead path => s!"Cannot read {path}: No such file or directory (os error 2)"
  | .notText path => s!"Cannot read {path}: stream did not contain valid UTF-8"

def FormatError.message : FormatError → String
  | .typeArgument text => s!"Invalid type argument '{text}'"
  | .elementStart found => s!"Expected quoted element, found '{found}'"
  | .elementEnd found => s!"Unexpected '{found}'"
  | .elementOpen => "Unterminated element"
  | .unbalancedType text => s!"Unbalanced type '{text}'"
  | .fractionDigits n => s!"Invalid fractional precision {n}"
  | .missingLength name => s!"Type '{name}' needs a length"
  | .decimalShape p s => s!"Invalid DECIMAL({p},{s})"
  | .setSize => "SET has more than 64 elements"
  | .bitWidth n => s!"Invalid BIT({n})"
  | .unknownType name => s!"Unsupported column type '{name}'"
  | .tableDefinition => "Invalid table definition"
  | .options => "Invalid config"
  | .fileSize size page => s!"File size {size} is not a multiple of the page size {page}"
  | .recordStatus code origin => s!"invalid record status {code} at offset {origin}"

def ArgumentError.message : ArgumentError → String
  | .literal text type column =>
    let name := type.toText
    s!"'{text}' is not a valid {name} value for column '{column}'"
  | .pageNumber page count => s!"Page {page} out of range (tablespace has {count} pages)"
  | .noColumns table => s!"Table '{table}' has no columns"
  | .duplicateColumn column => s!"Duplicate column '{column}'"
  | .unknownKeyColumn column => s!"Primary key column '{column}' does not exist"
  | .repeatedKeyColumn column => s!"Primary key column '{column}' listed twice"
  | .columnIndex index count => s!"column index {index} out of range ({count} columns)"
  | .keyLength expected given => s!"primary key has {expected} fields, {given} given"
  | .boundLength given limit => s!"range bound has {given} fields, primary key has {limit}"
  | .boundsReversed => "range lower bound is above the upper bound"
  | .rowId text => s!"'{text}' is not a row id"
  | .singleRowId => "table has no primary key; give a single row id"
  | .keyValues given limit => s!"key has {given} values, primary key has {limit} columns"
  | .unknownColumn name => s!"unknown column '{name}'"
  | .filter text => s!"filter '{text}' is not COLUMN=VALUE"

/-- The text of a read of `length` bytes at `offset` of a buffer of `size` bytes. -/
def outOfBoundsMessage (offset length size : Nat) : String :=
  s!"Read of {length} bytes at offset {offset} exceeds buffer of {size} bytes"

/-- The error that a header which belongs to no page gives. -/
def HeaderError.toError : HeaderError → Error
  | .outOfBounds offset length size => .read (.outOfBounds offset length size)
  | .status code origin => .format (.recordStatus code origin)

def HeaderError.message : HeaderError → String
  | .outOfBounds offset length size => outOfBoundsMessage offset length size
  | .status code origin => "Parse error: " ++ (FormatError.recordStatus code origin).message

def Damage.message : Damage → String
  | .pageLength length expected => s!"page buffer is {length} bytes, expected {expected}"
  | .lsnMismatch header trailer =>
    let h := hexWord header
    let t := hexWord trailer
    s!"LSN mismatch: header low32 {h}, trailer {t}"
  | .checksum stored calculated =>
    let s := hexWord stored
    let c := hexWord calculated
    s!"checksum mismatch: stored {s}, calculated {c}"
  | .kind expected found =>
    let e := expected.name
    let f := found.name
    s!"expected {e} page, found {f}"
  | .notExtents found => "expected FSP_HDR or XDES page, found " ++ found.name
  | .infimumLiteral => "infimum record literal mismatch"
  | .supremumLiteral => "supremum record literal mismatch"
  | .directoryLength => "directory larger than page"
  | .directory slots top => s!"invalid directory: {slots} slots, heap top {top}"
  | .directorySlot slot origin =>
    s!"directory slot {slot} points outside the heap ({origin})"
  | .directoryEnds => "directory does not start at infimum and end at supremum"
  | .inodeMagic slot magic segment => s!"inode slot {slot} has magic {magic} (segment {segment})"
  | .blobOverrun length => s!"BLOB part of {length} bytes overruns the page"
  | .blobCycle => "BLOB chain revisits a page"
  | .blobEmpty => "empty BLOB part in chain"
  | .blobEnd length total => s!"BLOB chain ended after {length} of {total} bytes"
  | .recordHeader origin cause =>
    let m := cause.message
    s!"record at {origin}: {m}"
  | .recordStatus status origin leaf =>
    let s := status.name
    let p := if leaf then "leaf" else "non-leaf"
    s!"{s} record at {origin} on a {p} page"
  | .recordStart => "record header runs off the page"
  | .nullBitmap origin => s!"null bitmap of record at {origin} underflows"
  | .nextOffset origin offset =>
    s!"record at {origin} has next offset {offset} pointing outside the page body"
  | .pointerLength length =>
    s!"external field of {length} bytes is shorter than its pointer"
  | .chainUnending => "record chain does not reach the supremum"
  | .chainEnds => "record chain ends before the supremum"
  | .noNodePointers => "internal page has no node pointers"
  | .infimumAlone => "infimum has no successor"
  | .noChild origin => s!"node pointer at {origin} has no child"
  | .childLevel child parent => s!"child at level {child} under a parent at level {parent}"
  | .notLeaf level => s!"expected a leaf page, found level {level}"
  | .foreignIndex found expected =>
    s!"page belongs to index {found}, not the clustered index {expected}"
  | .recordCount declared found => s!"header declares {declared} records, chain holds {found}"
  | .siblingCycle => "leaf sibling chain visits more pages than the tablespace holds"
  | .noRoot pages => s!"no clustered index root (tablespace has {pages} pages)"
  | .rootSiblings => "root candidate has sibling pages"
  | .rootKind found =>
    let f := found.name
    s!"expected the clustered index root, found a {f} page"

def FormatUnsupported.message : FormatUnsupported → String
  | .redundantRows page => s!"page {page} uses the redundant row format"
  | .pageKind page kind =>
    let k := kind.name
    s!"page {page} is a {k} page"
  | .largeKeyColumn column => s!"Primary key column '{column}' is a BLOB/TEXT column"

namespace Error

/-- **The kind of an error.** -/
def kind : Error → ErrorKind
  | .file _ => .io
  | .format _ => .parse
  | .argument _ => .argument
  | .read (.outOfBounds ..) => .bounds
  | .read (.width _) => .argument
  | .corrupt .. => .corrupt
  | .unsupported _ => .unsupported
  | .stray _ => .stray

/-- **The text of an error.** -/
def message : Error → String
  | .file cause => "I/O error: " ++ cause.message
  | .format cause => "Parse error: " ++ cause.message
  | .argument cause => "Invalid argument: " ++ cause.message
  | .read (.outOfBounds offset length size) => outOfBoundsMessage offset length size
  | .read (.width n) => s!"Invalid argument: Cannot read a {n}-byte integer"
  | .corrupt page cause =>
    let m := cause.message
    s!"Corrupt page {page}: {m}"
  | .unsupported cause => "Unsupported format: " ++ cause.message
  | .stray offset => s!"Stray access at offset {offset}"

end Error

theorem HeaderError.message_toError (e : HeaderError) : e.toError.message = e.message := by
  cases e <;> rfl

end Tablespace
