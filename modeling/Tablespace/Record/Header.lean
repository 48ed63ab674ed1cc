import Tablespace.Error

/-! # Record headers

The five bytes before the origin of a record hold two flags and a count, a place in the heap, the
status of the record, and how far away the next record is. -/

namespace Tablespace

/-- **The header of a record.** -/
structure RecordHeader where
  /-- How many records the slot of this record stands for. -/
  owned : Nat
  deleted : Bool
  /-- Whether this is the first record of an internal level. -/
  leftmost : Bool
  heapNumber : Nat
  status : Status
  /-- How far away the next record is. -/
  next : Int
  deriving DecidableEq

namespace RecordHeader

/-- The bytes of a header. -/
def size : Nat := 5

/-- The three numbers of a header. -/
def fields : Read (Nat × Nat × Int) := do
  let flags ← Read.u8
  let place ← Read.u16
  let next ← Read.i16
  return (flags, place, next)

/-- **The header of the record at an origin.** -/
def at? (b : Buffer) (origin : Nat) : Except HeaderError RecordHeader :=
  if origin < size then .error (.outOfBounds origin size b.size)
  else match Read.from? b (origin - size) fields with
    | .error (.outOfBounds offset length n) => .error (.outOfBounds offset length n)
    | .error (.width _) => .error (.outOfBounds origin size b.size)
    | .ok (flags, place, next) =>
      match Status.ofCode? place with
      | none => .error (.status (place % 8) origin)
      | some status => .ok {
          owned := flags % 16
          deleted := flags.testBit 5
          leftmost := flags.testBit 4
          heapNumber := place / 8
          status
          next }

end RecordHeader
end Tablespace
