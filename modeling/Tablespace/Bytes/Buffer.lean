/-! # Buffers

A buffer is a view of bytes: how many there are, and the byte at each offset. A slice shares the
bytes of the buffer it is cut from.

* `bigEndian`: the number that a list of bytes writes, most significant byte first.
* `Buffer.bytes`: a run of bytes of a buffer as a list; `Buffer.uint`: the number it writes.
* `Buffer.get?`: the byte at an offset, absent outside the buffer. -/

namespace Tablespace

/-- **The number written by bytes**, most significant byte first. -/
def bigEndian (bytes : List UInt8) : Nat :=
  bytes.foldl (fun n b => n * 256 + b.toNat) 0

/-- **A view of bytes**: their count, and the byte at each offset below it. -/
structure Buffer where
  size : Nat
  byte : Nat → UInt8

namespace Buffer

/-- A view of a byte array. -/
def ofByteArray (a : ByteArray) : Buffer where
  size := a.size
  byte i := if h : i < a.size then a[i] else 0

/-- A view of a list of bytes. -/
def ofList (l : List UInt8) : Buffer where
  size := l.length
  byte i := l.getD i 0

/-- The `n` bytes from `start` on; the caller has made sure that they are there. -/
def bytes (b : Buffer) (start : Nat) : Nat → List UInt8
  | 0 => []
  | n + 1 => b.byte start :: b.bytes (start + 1) n

/-- All bytes of a buffer. -/
def toList (b : Buffer) : List UInt8 := b.bytes 0 b.size

/-- The big-endian number in the `n` bytes from `start` on. -/
def uint (b : Buffer) (start n : Nat) : Nat := bigEndian (b.bytes start n)

/-- The view of the `n` bytes from `start` on. -/
def slice (b : Buffer) (start n : Nat) : Buffer where
  size := n
  byte i := b.byte (start + i)

/-- The byte at offset `i`, absent outside the buffer. -/
def get? (b : Buffer) (i : Nat) : Option UInt8 :=
  if i < b.size then some (b.byte i) else none

theorem length_bytes (b : Buffer) (start n : Nat) : (b.bytes start n).length = n := by
  induction n generalizing start with
  | zero => rfl
  | succ n ih => simp [bytes, ih]

theorem getElem?_bytes {b : Buffer} {start n i : Nat} (h : i < n) :
    (b.bytes start n)[i]? = some (b.byte (start + i)) := by
  induction n generalizing start i with
  | zero => exact absurd h (Nat.not_lt_zero i)
  | succ n ih =>
    cases i with
    | zero => rfl
    | succ i =>
      rw [bytes, List.getElem?_cons_succ, ih (Nat.lt_of_succ_lt_succ h), Nat.succ_add_eq_add_succ]

theorem bytes_slice (b : Buffer) (start n i k : Nat) :
    (b.slice start n).bytes i k = b.bytes (start + i) k := by
  induction k generalizing i with
  | zero => rfl
  | succ k ih => simp only [bytes, slice] at ih ⊢; rw [ih, Nat.add_assoc]

theorem uint_slice (b : Buffer) (start n i k : Nat) :
    (b.slice start n).uint i k = b.uint (start + i) k := by
  unfold uint
  rw [bytes_slice]

theorem get?_eq_some {b : Buffer} {i : Nat} (h : i < b.size) : b.get? i = some (b.byte i) := by
  simp [get?, h]

end Buffer

/-! ### Big-endian numbers -/

theorem pow_length_succ (n : Nat) : Nat.pow 256 (n + 1) = Nat.pow 256 n * 256 := rfl

theorem bigEndian_foldl (n : Nat) (l : List UInt8) :
    l.foldl (fun n b => n * 256 + b.toNat) n = n * Nat.pow 256 l.length + bigEndian l := by
  induction l generalizing n with
  | nil => simp [bigEndian]
  | cons b l ih =>
    have h : bigEndian (b :: l) = b.toNat * Nat.pow 256 l.length + bigEndian l := by
      show List.foldl _ (0 * 256 + b.toNat) l = _
      rw [ih]; simp
    rw [List.foldl_cons, ih, h, List.length_cons, pow_length_succ, Nat.add_mul, Nat.add_assoc,
      Nat.mul_assoc, Nat.mul_comm 256]

theorem bigEndian_nil : bigEndian [] = 0 := rfl

theorem bigEndian_cons (b : UInt8) (l : List UInt8) :
    bigEndian (b :: l) = b.toNat * Nat.pow 256 l.length + bigEndian l := by
  have h := bigEndian_foldl 0 (b :: l)
  have h' := bigEndian_foldl b.toNat l
  unfold bigEndian at *
  simpa using h'

/-- A number of `n` bytes is below `256 ^ n`. -/
theorem bigEndian_lt (l : List UInt8) : bigEndian l < Nat.pow 256 l.length := by
  induction l with
  | nil => simp [bigEndian_nil]
  | cons b l ih =>
    have hb : b.toNat < 256 := b.toNat_lt
    have hm : (b.toNat + 1) * Nat.pow 256 l.length ≤ 256 * Nat.pow 256 l.length :=
      Nat.mul_le_mul_right _ hb
    rw [bigEndian_cons, List.length_cons, pow_length_succ, Nat.mul_comm _ 256]
    rw [Nat.add_mul] at hm
    omega

end Tablespace
