import Tablespace.Page.Frame

/-! # Overflow pages

The tail of a long value is stored apart from its record, on a chain of pages. The record ends the
value with a pointer to the chain; each page of the chain holds a part and names the next page.

* `OverflowPointer`: the pointer. `BlobPart`: the part of a page.
* `PageSource.external`: the bytes that a pointer stands for. -/

namespace Tablespace

/-- **A pointer to the tail of a value.** -/
structure OverflowPointer where
  spaceId : Nat
  page : Nat
  offset : Nat
  length : Nat
  owner : Bool
  inherited : Bool
  deriving DecidableEq, Repr

namespace OverflowPointer

/-- The bytes of a pointer. -/
def size : Nat := 20

/-- The pointer of 20 bytes: four numbers of four bytes and, in the third of them, two flags. -/
def ofBytes (bytes : List UInt8) : Except Error OverflowPointer :=
  if bytes.length = size then
    let b := Buffer.ofList bytes
    let flags := (b.byte 12).toNat
    .ok {
      spaceId := b.uint 0 4
      page := b.uint 4 4
      offset := b.uint 8 4
      length := b.uint 16 4
      owner := !flags.testBit 7
      inherited := flags.testBit 6 }
  else .error (.read (.outOfBounds 0 size bytes.length))

end OverflowPointer

/-- **The part of a value that a page holds.** -/
structure BlobPart where
  page : Nat
  offset : Nat
  length : Nat
  next : Option Nat
  deriving DecidableEq, Repr

namespace BlobPart

/-- The bytes before a part: its length and the next page. -/
def headerSize : Nat := 8

/-- **The part at an offset of a page**, which lies in the body of the page. -/
def ofPage (p : Page) (offset : Nat) : Except Error BlobPart := do
  if p.kind ≠ .blob ∧ p.kind ≠ .dictionaryBlob then
    if p.kind.isTransformed || p.kind.isForeignLob then
      .error (.unsupported (.pageKind p.number p.kind))
    else p.damaged (.kind .blob p.kind)
  else
    let (length, next) ← p.data.readFrom offset do
      let length ← Read.u32
      let next ← Read.u32
      return (length, next)
    if bodyEnd < offset + headerSize + length then p.damaged (.blobOverrun length)
    else return { page := p.number, offset, length, next := pageLink next }

/-- The bytes of a part, which lie in its page if all is well. -/
def payload (b : BlobPart) (p : Page) : Except Error (List UInt8) :=
  if b.offset + headerSize + b.length ≤ p.data.size then
    .ok (p.data.bytes (b.offset + headerSize) b.length)
  else .error (.stray b.offset)

theorem length_of_payload {b : BlobPart} {p : Page} {l : List UInt8} (h : b.payload p = .ok l) :
    l.length = b.length := by
  unfold payload at h
  split at h
  · cases h; exact Buffer.length_bytes ..
  · cases h

end BlobPart

namespace PageSource

/-- The part of a page, which is not empty, and its bytes. -/
def partOf (src : PageSource) (page offset : Nat) : Except Error (BlobPart × List UInt8) := do
  let p ← src page
  let part ← BlobPart.ofPage p offset
  if part.length = 0 then .error (.corrupt page .blobEmpty)
  else return (part, ← part.payload p)

theorem length_of_partOf {src : PageSource} {page offset : Nat} {part : BlobPart}
    {data : List UInt8} (h : src.partOf page offset = .ok (part, data)) : 0 < data.length := by
  unfold partOf at h
  cases hp : src page with
  | error => rw [hp] at h; cases h
  | ok p =>
    cases hb : BlobPart.ofPage p offset with
    | error => simp only [hp, hb, bind, Except.bind] at h; cases h
    | ok b =>
      cases hd : b.payload p with
      | error =>
        simp only [hp, hb, hd, bind, Except.bind] at h
        split at h <;> cases h
      | ok l =>
        simp only [hp, hb, hd, bind, Except.bind] at h
        split at h
        · cases h
        · cases h
          rw [BlobPart.length_of_payload hd]; omega

/-- What is still to come of a value after `done` of its `total` bytes, from a part on: parts up to
the last byte, on pages none of which has been visited. -/
def externalFrom (src : PageSource) (total done : Nat) (visited : List Nat) (page offset : Nat) :
    Except Error (List UInt8) :=
  if total ≤ done then .ok []
  else if page ∈ visited then .error (.corrupt page .blobCycle)
  else
    match _h : src.partOf page offset with
    | .error e => .error e
    | .ok (part, data) =>
      let data := data.take (total - done)
      match part.next with
      | some next => do
        let rest ← externalFrom src total (done + data.length) (page :: visited) next headerSize
        return data ++ rest
      | none =>
        if total ≤ done + data.length then .ok data
        else .error (.corrupt page (.blobEnd (done + data.length) total))
termination_by total - done
decreasing_by
  have := length_of_partOf _h
  simp only [List.length_take]; omega

/-- **The bytes that a pointer stands for.** -/
def external (src : PageSource) (ptr : OverflowPointer) : Except Error (List UInt8) :=
  src.externalFrom ptr.length 0 [] ptr.page ptr.offset

end PageSource
end Tablespace
