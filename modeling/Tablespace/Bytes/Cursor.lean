import Tablespace.Bytes.Buffer
import Tablespace.Text.Utf8

/-! # Cursors

A cursor is a position in a buffer. Reading is a program of `Read`: it moves the cursor, or fails
and leaves it where it was. Every step checks the bounds of the buffer first.

* `Read.peek`, `Read.bytes`, `Read.skip`: the bytes at the position, read or passed over.
* `Read.rewind`, `Read.seek`: moves of the position alone.
* `Read.uint` and the reads of fixed width: big-endian numbers, two's complement where signed. -/

namespace Tablespace

/-- **Why a read failed.** -/
inductive ReadError
  /-- The `length` bytes from `offset` on do not lie in a buffer of `size` bytes. -/
  | outOfBounds (offset length size : Nat)
  /-- No integer has this number of bytes. -/
  | width (n : Nat)
  deriving DecidableEq, Repr

/-- **A position in a buffer.** -/
structure Cursor where
  buffer : Buffer
  position : Nat

namespace Cursor

/-- The cursor at the start of a buffer. -/
def start (b : Buffer) : Cursor := ⟨b, 0⟩

/-- The number of bytes after the position. -/
def remaining (c : Cursor) : Nat := c.buffer.size - c.position

/-- The cursor at `position`, which may be the end of the buffer but not beyond. -/
def at? (b : Buffer) (position : Nat) : Except ReadError Cursor :=
  if position ≤ b.size then .ok ⟨b, position⟩ else .error (.outOfBounds position 0 b.size)

/-- The position is in the buffer or at its end. -/
def Valid (c : Cursor) : Prop := c.position ≤ c.buffer.size

theorem valid_start (b : Buffer) : (start b).Valid := Nat.zero_le _

theorem valid_of_at? {b : Buffer} {p : Nat} {c : Cursor} (h : at? b p = .ok c) : c.Valid := by
  unfold at? at h
  split at h
  · next hp => cases h; exact hp
  · cases h

end Cursor

/-- **A program that reads at a cursor.** -/
abbrev Read (α : Type) : Type := EStateM ReadError Cursor α

namespace Read

/-- The failure to read `n` bytes at the position. -/
def outOfBounds (n : Nat) : Read α := fun c =>
  .error (.outOfBounds c.position n c.buffer.size) c

/-- The next `n` bytes, the position unmoved. -/
def peek (n : Nat) : Read (List UInt8) := fun c =>
  if n ≤ c.remaining then .ok (c.buffer.bytes c.position n) c else outOfBounds n c

/-- Pass over `n` bytes. -/
def skip (n : Nat) : Read Unit := fun c =>
  if n ≤ c.remaining then .ok () { c with position := c.position + n } else outOfBounds n c

/-- The next `n` bytes, and pass over them. -/
def bytes (n : Nat) : Read (List UInt8) := do
  let l ← peek n
  skip n
  return l

/-- Move back by `n` bytes. -/
def rewind (n : Nat) : Read Unit := fun c =>
  if n ≤ c.position then .ok () { c with position := c.position - n } else outOfBounds n c

/-- Move to an absolute position, the end of the buffer included. -/
def seek (position : Nat) : Read Unit := fun c =>
  if position ≤ c.buffer.size then .ok () { c with position }
  else .error (.outOfBounds position 0 c.buffer.size) c

/-- The unsigned number in the next `n` bytes. -/
def unsigned (n : Nat) : Read Nat := return bigEndian (← bytes n)

/-- The two's complement number in the next `n` bytes. -/
def signed (n : Nat) : Read Int := return Int.bmod (bigEndian (← bytes n)) (Nat.pow 256 n)

/-- The unsigned number in the next `n` bytes, where `n` is 1 to 8. -/
def uint (n : Nat) : Read Nat :=
  if n = 0 ∨ 8 < n then throw (.width n) else unsigned n

def u8 : Read Nat := unsigned 1

def u16 : Read Nat := unsigned 2

def u32 : Read Nat := unsigned 4

def u48 : Read Nat := unsigned 6

def u64 : Read Nat := unsigned 8

def i16 : Read Int := signed 2

def i64 : Read Int := signed 8

/-- The next `n` bytes as UTF-8 text, ill-formed parts replaced. -/
def text (n : Nat) : Read String := return Utf8.decode (← bytes n)

/-- The result of a read at a cursor, and the cursor after it. -/
def runAt (r : Read α) (c : Cursor) : Except ReadError (α × Cursor) :=
  match r c with
  | .ok a c' => .ok (a, c')
  | .error e _ => .error e

/-- The result of a read from an absolute position of a buffer. -/
def from? (b : Buffer) (position : Nat) (r : Read α) : Except ReadError α := do
  let c ← Cursor.at? b position
  return (← r.runAt c).1

end Read
end Tablespace
