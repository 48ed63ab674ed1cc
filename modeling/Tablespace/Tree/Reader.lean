import Tablespace.Image
import Tablespace.Page.Body
import Tablespace.Record.Chain

/-! # Table readers

A reader holds the image of a tablespace and what is known of the clustered index of a table. Every
query loads the pages that it needs.

* `Reader.of`: the reader of a table, whose root is searched for if the options do not give it.
* `Reader.node`: a page of the clustered index. `Reader.childNode`: a page that a node pointer leads
  to, one level below the page of the pointer.
* `Reader.records`: the user records of a page. -/

namespace Tablespace

/-- **A page of an index**, and what it holds as such. -/
structure Node where
  page : Page
  index : IndexPage

/-- **What it takes to read the rows of a table.** -/
structure Reader where
  image : Image
  codec : Codec
  options : Options
  root : Nat
  indexId : Nat

/-! ### The root -/

/-- The page at which the search for the root begins. -/
def firstRootPage : Nat := 3

namespace Root

/-- The number after that of a page. It has 32 bits, so that page 0 comes after the last. -/
def nextPage (page : Nat) : Nat := (page + 1) % 0x100000000

/-- The index page of a candidate for the root. -/
def accept (p : Page) : Except Error IndexPage :=
  if p.kind = .index then do
    let x ← IndexPage.ofPage p
    if x.isRoot then return x else p.damaged .rootSiblings
  else p.damaged (.rootKind p.kind)

/-- A page that may be the root, which has to be there. -/
def candidate (i : Image) (page : Nat) : Except Error Page :=
  if page < i.pageCount then i.load page else .error (.corrupt page (.noRoot i.pageCount))

/-- The root from a page on, past up to `skips` pages of the dictionary. -/
def search (i : Image) (page : Nat) : (skips : Nat) → Except Error (Nat × IndexPage)
  | 0 => do
    let p ← candidate i page
    return (page, ← accept p)
  | skips + 1 => do
    let p ← candidate i page
    if p.kind = .dictionary then search i (nextPage page) skips
    else return (page, ← accept p)

/-- **The root of the clustered index.** -/
def find (i : Image) (o : Options) : Except Error (Nat × IndexPage) :=
  match o.rootPage with
  | some page => search i page 0
  | none => search i firstRootPage o.rootSearchLimit

end Root

namespace Reader

/-- **The reader of a table.** -/
def of (i : Image) (t : Table) (o : Options) : Except Error Reader := do
  let codec ← Codec.of t o
  let (root, x) ← Root.find i o
  return { image := i, codec, options := o, root, indexId := x.header.indexId }

def table (r : Reader) : Table := r.codec.table

def keyLength (r : Reader) : Nat := r.codec.keyLength

def pageCount (r : Reader) : Nat := r.image.pageCount

/-- The pages of the tablespace. -/
def source (r : Reader) : PageSource := r.image.load

/-- The body of a page. -/
def decodePage (r : Reader) (page : Nat) : Except Error PageBody := do
  let p ← r.image.load page
  p.decode

/-- Whether a record is shown. -/
def isVisible (r : Reader) (rec : Record) : Bool := r.options.includeDeleted || !rec.isDeleted

/-! ### Pages of the index -/

/-- **A page of the clustered index.** -/
def node (r : Reader) (page : Nat) : Except Error Node := do
  let p ← r.image.load page
  p.expect .index
  let x ← IndexPage.ofPage p
  if x.header.indexId = r.indexId then return { page := p, index := x }
  else .error (.corrupt page (.foreignIndex x.header.indexId r.indexId))

/-- **The page below a page of a level**, whose own level is one less. -/
def childNode (r : Reader) (parent page : Nat) : Except Error Node := do
  let n ← r.node page
  if n.index.level + 1 = parent then return n
  else .error (.corrupt page (.childLevel n.index.level parent))

/-- How much of the records of a page a scan decodes. -/
def scanDepth (x : IndexPage) : Depth := if x.isLeaf then .full else .key

/-- **The user records of a page**, as many as its header says if that is asked for. -/
def records (r : Reader) (n : Node) : Except Error (List Record) := do
  let l ← r.codec.chain r.source n.page n.index (scanDepth n.index)
  if l.length ≠ n.index.header.records ∧ r.options.strictRecordCount then
    n.page.damaged (.recordCount n.index.header.records l.length)
  else return l

/-- The record at an origin of a page, up to its key. -/
def probe (r : Reader) (n : Node) (origin : Nat) : Except Error Record :=
  r.codec.read r.source n.page n.index.isLeaf .key origin

end Reader
end Tablespace
