import Tablespace.Page.Frame

/-! # Page checksums

A checksum covers two ranges of a page: the header from the page number up to the kind, and the
body. It is CRC-32C of each, combined, or an older fold of words; a page that is all zero or bears
a magic number goes unchecked.

* `Checksum.crc32c`, `Checksum.legacy`: the two checksums of a page.
* `Checksum.validate`: which of them, if any, a page bears. -/

namespace Tablespace.Checksum

/-- The bytes of the header that a checksum covers. -/
def headBytes (b : Buffer) : List UInt8 := b.bytes 4 22

/-- The bytes of the body, all of which a checksum covers. -/
def bodyBytes (b : Buffer) : List UInt8 := b.bytes headerSize (bodyEnd - headerSize)

/-! ### CRC-32C -/

/-- The polynomial of CRC-32C, lowest power in the highest bit. -/
def polynomial : UInt32 := 0x82F63B78

/-- A division step by one bit. -/
def crcBit (c : UInt32) : UInt32 :=
  if c &&& 1 = 1 then (c >>> 1) ^^^ polynomial else c >>> 1

/-- The division steps of a byte. -/
def crcByte (c : UInt32) (b : UInt8) : UInt32 :=
  crcBit (crcBit (crcBit (crcBit (crcBit (crcBit (crcBit (crcBit (c ^^^ b.toUInt32))))))))

/-- CRC-32C of bytes. -/
def crc (bytes : List UInt8) : UInt32 := bytes.foldl crcByte 0xFFFFFFFF ^^^ 0xFFFFFFFF

/-- **The CRC checksum of a page.** -/
def crc32c (page : Buffer) : UInt32 := crc (headBytes page) ^^^ crc (bodyBytes page)

/-! ### The older fold -/

/-- One step of the fold. -/
def foldPair (m n : UInt64) : UInt64 :=
  ((((m ^^^ n ^^^ 1653893711) <<< 8) + m) ^^^ 1463735687) + n

/-- The words of groups of four bytes. -/
def words : List UInt8 → List UInt64
  | a :: b :: c :: d :: rest => UInt64.ofNat (bigEndian [a, b, c, d]) :: words rest
  | _ => []

/-- The numbers of less than eight bytes: the last four are a word, and bytes before it stand
alone. -/
def tailUnits (bytes : List UInt8) : List UInt64 :=
  let n := if bytes.length < 4 then bytes.length else bytes.length - 4
  (bytes.take n).map UInt8.toUInt64 ++ words (bytes.drop n)

/-- The numbers that bytes are folded as: words as far as groups of eight bytes go, then the
tail. -/
def units (bytes : List UInt8) : List UInt64 :=
  let n := bytes.length / 8 * 8
  words (bytes.take n) ++ tailUnits (bytes.drop n)

/-- The fold of bytes. -/
def fold (bytes : List UInt8) : UInt64 := (units bytes).foldl foldPair 0

/-- **The older checksum of a page.** -/
def legacy (page : Buffer) : UInt32 := (fold (headBytes page) + fold (bodyBytes page)).toUInt32

/-! ### Validation -/

/-- **What a page bears.** -/
inductive Algorithm
  | crc32c
  | legacy
  | none
  deriving DecidableEq, Repr

/-- **The outcome of a validation.** -/
structure Result where
  algorithm : Algorithm
  valid : Bool
  stored : Nat
  calculated : Nat
  deriving DecidableEq, Repr

/-- The number of a page that goes unchecked. -/
def unchecked : Nat := 0xDEADBEEF

/-- **Which checksum a page bears.** A mismatch shows the CRC checksum. -/
def validate (page : Buffer) : Result :=
  if page.size < pageSize then ⟨.none, false, 0, 0⟩
  else
    let stored := page.uint 0 4
    if stored = unchecked then ⟨.none, true, stored, unchecked⟩
    else if stored = 0 ∧ (page.bytes 0 pageSize).all (· = 0) then ⟨.none, true, stored, 0⟩
    else
      let crc := (crc32c page).toNat
      if stored = crc then ⟨.crc32c, true, stored, crc⟩
      else if stored = (legacy page).toNat then ⟨.legacy, true, stored, stored⟩
      else ⟨.crc32c, false, stored, crc⟩

end Tablespace.Checksum
