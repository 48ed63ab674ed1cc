import Tablespace.Tree.Reader

/-! # Searching

On a page, the slots of the directory are halved until two neighbours bracket the key, and then the
chain is followed from one slot before. From page to page, a search goes down to the child whose
node pointer is the last that is not above the key, or to the leftmost child if all are above it.

* `Reader.locate`: where a key falls on a page. `Reader.descend`: the leaf where it belongs.
* `Reader.get`: the record of a key. -/

namespace Tablespace

/-- **How a search treats a record that is equal to the key.** -/
inductive Aim
  /-- It ends there. -/
  | equal
  /-- It takes the record for a greater one, and so ends before the first of them. -/
  | before
  deriving DecidableEq, Repr

/-- **Where a key falls on a page.** -/
inductive Place
  /-- At a record. -/
  | at (r : Record)
  /-- Between the last record below and the first above. -/
  | between (prev next : Record)

/-- The side of a record on which the search goes on, absent where it has come to its end. -/
def Aim.isBelow? (a : Aim) (r : Record) (key : Key) : Option Bool :=
  match r.compareKey key, a with
  | .lt, _ => some true
  | .eq, .equal => none
  | _, _ => some false

/-- **The child in which a key belongs.** -/
def Place.child (p : Place) (page : Nat) : Except Error Nat :=
  let r := match p with
    | .at r => r
    | .between prev next => if prev.isInfimum then next else prev
  match r.child with
  | some n => .ok n
  | none => .error (.corrupt page .noNodePointers)

namespace Reader

/-! ### On a page -/

/-- The slot at a place, which is there if all is well. -/
def slotAt (slots : Array Nat) (i : Nat) : Except Error Nat :=
  match slots[i]? with
  | some origin => .ok origin
  | none => .error (.stray i)

/-- The last of the slots `lo`, …, `hi - 1` whose record is below the key, or else `lo`; or the
record of a slot at which the search ends. -/
def bracket (r : Reader) (n : Node) (key : Key) (aim : Aim) (lo hi : Nat) :
    Except Error (Record ⊕ Nat) :=
  if lo + 1 < hi then do
    let mid := (lo + hi) / 2
    let origin ← slotAt n.index.slots mid
    let rec ← r.probe n origin
    match aim.isBelow? rec key with
    | none => return .inl rec
    | some true => r.bracket n key aim mid hi
    | some false => r.bracket n key aim lo mid
  else .ok (.inr lo)
termination_by hi - lo

/-- Where a key falls among the records that follow one below it. -/
def scan (r : Reader) (n : Node) (key : Key) (aim : Aim) : Nat → Record → Except Error Place
  | 0, _ => n.page.damaged .chainUnending
  | steps + 1, prev =>
    match prev.nextOrigin? with
    | none => n.page.damaged .chainEnds
    | some origin => do
      let rec ← r.probe n origin
      match aim.isBelow? rec key with
      | none => return .at rec
      | some true => r.scan n key aim steps rec
      | some false => return .between prev rec

/-- **Where a key falls on a page.** -/
def locate (r : Reader) (n : Node) (key : Key) (aim : Aim) : Except Error Place := do
  if n.index.slots.size = 0 then .error (.stray 0)
  else match ← r.bracket n key aim 0 (n.index.slots.size - 1) with
    | .inl rec => return .at rec
    | .inr lo => do
      let origin ← slotAt n.index.slots (lo - 1)
      let first ← r.probe n origin
      r.scan n key aim n.index.maxSteps first

/-! ### From page to page -/

/-- The leftmost child of a page. -/
def firstChild (r : Reader) (n : Node) : Except Error Nat := do
  let infimum ← r.probe n IndexPage.infimum
  match infimum.nextOrigin? with
  | none => n.page.damaged .infimumAlone
  | some origin => do
    let next ← r.probe n origin
    (Place.between infimum next).child n.index.number

/-- The child of a page in which a key belongs, or the leftmost child if no key is given. -/
def childFor (r : Reader) (n : Node) (key : Option Key) (aim : Aim) : Except Error Nat :=
  match key with
  | none => r.firstChild n
  | some key => do
    let place ← r.locate n key aim
    place.child n.index.number

/-- The leaf below a page of a level in which a key belongs. -/
def descendFrom (r : Reader) (key : Option Key) (aim : Aim) : (level : Nat) → Node →
    Except Error Node
  | 0, n => .ok n
  | level + 1, n => do
    let child ← r.childFor n key aim
    let below ← r.childNode (level + 1) child
    r.descendFrom key aim level below

/-- **The leaf in which a key belongs**, or the leftmost leaf if no key is given. -/
def descend (r : Reader) (key : Option Key) (aim : Aim) : Except Error Node := do
  let n ← r.node r.root
  r.descendFrom key aim n.index.level n

/-- **The record of a key**, absent if none is shown. The key gives every key field. -/
def get (r : Reader) (key : Key) : Except Error (Option Record) :=
  if key.length ≠ r.keyLength then
    .error (.argument (.keyLength r.keyLength key.length))
  else do
    let n ← r.descend (some key) .equal
    match ← r.locate n key .equal with
    | .at rec =>
      if r.isVisible rec then some <$> r.codec.read r.source n.page true .full rec.origin
      else return none
    | .between .. => return none

end Reader
end Tablespace
