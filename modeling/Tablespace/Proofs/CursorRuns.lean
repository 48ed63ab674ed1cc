import Mathlib.Algebra.BigOperators.Group.Finset.Basic
import Mathlib.Data.Int.ModEq
import Tablespace.Proofs.CursorPrograms

/-! # Runs of a cursor

A cursor does one operation after the other, and goes on after those that fail. Whatever their
arguments, it stays in its buffer: an operation that fails leaves the cursor where it was, and a
number that is read is that of the bytes it moves past.

* `Buffer.worth`, `TwosComplement`: the numbers that bytes write, without a sign and with one.
* `Cursor.Operation`: the operations of a cursor, with their arguments.
* `Operation.Possible`, `target`, `Gives`, `failure`: when an operation succeeds, where it moves,
  what it gives, and what it fails by. `Operation.does_read`: this is what its program does.
* `Cursor.run`: what happens in a run of operations. `Event.Lawful`: one of them was done as it
  should be. `Cursor.lawful_step` is a step of a run, `Cursor.lawful_of_mem_run` the whole of it. -/

namespace Tablespace

/-! ### Numbers in bytes -/

/-- **What bytes are worth**: the `n` bytes from `start` on as a number, where the last of them
counts once and each of the others 256 times as much as the one behind it. -/
def Buffer.worth (b : Buffer) (start n : Nat) : Nat :=
  ∑ i ∈ Finset.range n, (b.byte (start + i)).toNat * 256 ^ (n - 1 - i)

theorem Buffer.uint_eq_worth (b : Buffer) (start n : Nat) : b.uint start n = b.worth start n := by
  unfold uint
  -- the first byte is split off, as it is from the list
  induction n generalizing start with
  | zero => rfl
  | succ n ih =>
    have hrest : b.worth (start + 1) n = ∑ i ∈ Finset.range n,
        (b.byte (start + (i + 1))).toNat * 256 ^ (n + 1 - 1 - (i + 1)) := by
      refine Finset.sum_congr rfl fun i _ => ?_
      rw [show start + (i + 1) = start + 1 + i by omega,
        show n + 1 - 1 - (i + 1) = n - 1 - i by omega]
    rw [bytes, bigEndian_cons, length_bytes, ih, hrest, worth, Finset.sum_range_succ', Nat.add_comm]
    rfl

/-- **Two's complement**: of the numbers that differ from `m` by a multiple of `256 ^ n`, the one
from `-256 ^ n / 2` to below `256 ^ n / 2`. -/
structure TwosComplement (n m : Nat) (z : Int) : Prop where
  modEq : z ≡ m [ZMOD 256 ^ n]
  le_double : -256 ^ n ≤ 2 * z
  double_lt : 2 * z < 256 ^ n

theorem twosComplement_bmod {n : Nat} (hn : 0 < n) (m : Nat) :
    TwosComplement n m (Int.bmod m (256 ^ n)) := by
  have hpos : 0 < (256 : Nat) ^ n := Nat.pow_pos (by decide)
  have heven : 2 ∣ (256 : Nat) ^ n := dvd_pow (by decide) hn.ne'
  have hlower := Int.le_bmod (x := m) hpos
  have hupper := Int.bmod_lt (x := m) hpos
  have hcast : (256 : Int) ^ n = (256 ^ n : Nat) := by norm_cast
  constructor
  case modEq =>
    show _ % _ = _ % _
    rw [hcast, Int.bmod_emod]
  case le_double =>
    rw [hcast]
    omega
  case double_lt =>
    rw [hcast]
    omega

namespace Cursor

/-! ### Operations -/

/-- **An operation of a cursor**, its argument a word of 64 bits. A slice of a buffer and a copy of
it are the same bytes. -/
inductive Operation
  | u8
  | u16
  | u32
  | u48
  | u64
  | i16
  | i64
  | uint (n : UInt64)
  | bytes (n : UInt64)
  | copy (n : UInt64)
  | text (n : UInt64)
  | peek (n : UInt64)
  | skip (n : UInt64)
  | rewind (n : UInt64)
  | seek (position : UInt64)
  deriving DecidableEq, Repr

/-- **What an operation gives.** -/
inductive Answer
  | nothing
  | unsigned (n : Nat)
  | signed (z : Int)
  | bytes (l : List UInt8)
  | text (s : String)
  deriving DecidableEq, Repr

namespace Operation

/-- **The program of an operation.** -/
def read : Operation → Read Answer
  | u8 => .unsigned <$> Read.u8
  | u16 => .unsigned <$> Read.u16
  | u32 => .unsigned <$> Read.u32
  | u48 => .unsigned <$> Read.u48
  | u64 => .unsigned <$> Read.u64
  | i16 => .signed <$> Read.i16
  | i64 => .signed <$> Read.i64
  | uint n => .unsigned <$> Read.uint n.toNat
  | bytes n | copy n => .bytes <$> Read.bytes n.toNat
  | text n => .text <$> Read.text n.toNat
  | peek n => .bytes <$> Read.peek n.toNat
  | skip n => (fun _ => .nothing) <$> Read.skip n.toNat
  | rewind n => (fun _ => .nothing) <$> Read.rewind n.toNat
  | seek position => (fun _ => .nothing) <$> Read.seek position.toNat

/-- The number of bytes behind the position that an operation asks for. -/
def width : Operation → Nat
  | u8 => 1
  | u16 | i16 => 2
  | u32 => 4
  | u48 => 6
  | u64 | i64 => 8
  | uint n | bytes n | copy n | text n | peek n | skip n => n.toNat
  | rewind _ | seek _ => 0

/-- **When an operation succeeds.** -/
def Possible (operation : Operation) (c : Cursor) : Prop :=
  match operation with
  | uint n => (1 ≤ n.toNat ∧ n.toNat ≤ 8) ∧ n.toNat ≤ c.remaining
  | rewind n => n.toNat ≤ c.position
  | seek position => position.toNat ≤ c.buffer.size
  | _ => operation.width ≤ c.remaining

/-- **Where an operation moves** from a position. -/
def target (operation : Operation) (start : Nat) : Nat :=
  match operation with
  | peek _ => start
  | rewind n => start - n.toNat
  | seek position => position.toNat
  | _ => start + operation.width

/-- **What an operation gives** that passes the `n` bytes from `start` on. -/
def Gives (operation : Operation) (b : Buffer) (start n : Nat) (a : Answer) : Prop :=
  match operation with
  | u8 | u16 | u32 | u48 | u64 | uint _ => a = .unsigned (b.worth start n)
  | i16 | i64 => ∃ z, TwosComplement n (b.worth start n) z ∧ a = .signed z
  | bytes _ | copy _ => a = .bytes (b.bytes start n)
  | text _ => a = .text (Utf8.decode (b.bytes start n))
  | peek seen => a = .bytes (b.bytes start seen.toNat)
  | skip _ | rewind _ | seek _ => a = .nothing

/-- **What an operation fails by.** -/
def failure (operation : Operation) (c : Cursor) : ReadError :=
  match operation with
  | uint n =>
    if 1 ≤ n.toNat ∧ n.toNat ≤ 8 then .outOfBounds c.position n.toNat c.buffer.size
    else .width n.toNat
  | rewind n => .outOfBounds c.position n.toNat c.buffer.size
  | seek position => .outOfBounds position.toNat 0 c.buffer.size
  | _ => .outOfBounds c.position operation.width c.buffer.size

/-- **What the program of an operation does.** -/
theorem does_read (operation : Operation) (c : Cursor) :
    operation.read.Does c (operation.Possible c) (operation.target c.position)
      (operation.Gives c.buffer c.position operation.width) (operation.failure c) := by
  have unsigned : ∀ {n m}, m = c.buffer.uint c.position n →
      Answer.unsigned m = .unsigned (c.buffer.worth c.position n) := by
    rintro n _ rfl
    rw [Buffer.uint_eq_worth]
  have signed : ∀ {n}, 0 < n → ∀ z, z = Int.bmod (c.buffer.uint c.position n) (Nat.pow 256 n) →
      ∃ z', TwosComplement n (c.buffer.worth c.position n) z' ∧ Answer.signed z = .signed z' := by
    rintro n hn _ rfl
    rw [Buffer.uint_eq_worth]
    exact ⟨_, twosComplement_bmod hn _, rfl⟩
  cases operation with
  | u8 | u16 | u32 | u48 | u64 => exact (Read.does_unsigned c _).map fun _ => unsigned
  | i16 | i64 => exact (Read.does_signed c _).map (signed (by decide))
  | uint n => exact (Read.does_uint c n.toNat).map fun _ => unsigned
  | bytes n | copy n => exact (Read.does_bytes c n.toNat).map fun _ => congrArg Answer.bytes
  | text n => exact (Read.does_text c n.toNat).map fun _ => congrArg Answer.text
  | peek n => exact (Read.does_peek c n.toNat).map fun _ => congrArg Answer.bytes
  | skip n => exact (Read.does_skip c n.toNat).map fun _ _ => rfl
  | rewind n => exact (Read.does_rewind c n.toNat).map fun _ _ => rfl
  | seek position => exact (Read.does_seek c position.toNat).map fun _ _ => rfl

/-- The bytes that a read passes are those that it asks for. -/
theorem gives_passed {operation : Operation} {b : Buffer} {start : Nat} {a : Answer}
    (h : operation.Gives b start operation.width a) :
    operation.Gives b start (operation.target start - start) a := by
  cases operation with
  | peek | rewind | seek => exact h
  | _ =>
    simp only [target, Nat.add_sub_cancel_left]
    exact h

/-- An operation that succeeds stays in the buffer. -/
theorem target_le {operation : Operation} {c : Cursor} (hc : c.Valid)
    (h : operation.Possible c) : operation.target c.position ≤ c.buffer.size := by
  unfold Valid at hc
  cases operation <;> simp only [Possible, target, width, remaining] at h ⊢ <;> omega

end Operation

/-! ### Runs -/

/-- **An operation that was done**: the cursor before it, what came of it, and the cursor after. -/
structure Event where
  before : Cursor
  operation : Operation
  answer : Except ReadError Answer
  after : Cursor

/-- One operation, where operations have the programs given. -/
def step (program : Operation → Read Answer) (c : Cursor) (operation : Operation) : Event :=
  match program operation c with
  | .ok a c' => ⟨c, operation, .ok a, c'⟩
  | .error e c' => ⟨c, operation, .error e, c'⟩

/-- **A run**: operations one after the other, each at the cursor that the one before has left,
whether it failed or not. -/
def run (program : Operation → Read Answer) (c : Cursor) : List Operation → List Event
  | [] => []
  | operation :: rest =>
    let e := step program c operation
    e :: run program e.after rest

/-- **An operation that was done as it should be**: it succeeded if it was possible, and not
otherwise. If it succeeded, it has moved to its target and gives what it should of the bytes that it
has passed. If it failed, the cursor is what it was. Either way the position lies in the same buffer
or at its end. -/
structure Event.Lawful (e : Event) : Prop where
  buffer : e.after.buffer = e.before.buffer
  valid : e.after.Valid
  succeeds : (∃ a, e.answer = .ok a) ↔ e.operation.Possible e.before
  moves : ∀ a, e.answer = .ok a → e.after.position = e.operation.target e.before.position
  gives : ∀ a, e.answer = .ok a → e.operation.Gives e.before.buffer e.before.position
    (e.after.position - e.before.position) a
  fails : ∀ error, e.answer = .error error →
    e.after = e.before ∧ error = e.operation.failure e.before

section
variable (program : Operation → Read Answer) (c : Cursor)

@[simp] theorem operation_step (operation : Operation) :
    (step program c operation).operation = operation := by
  unfold step
  split <;> rfl

@[simp] theorem before_step (operation : Operation) : (step program c operation).before = c := by
  unfold step
  split <;> rfl

/-- Every operation of a run is done, in their order. -/
theorem map_operation_run (operations : List Operation) :
    (run program c operations).map Event.operation = operations := by
  induction operations generalizing c with
  | nil => rfl
  | cons operation rest ih => rw [run, List.map_cons, operation_step, ih]

end

/-- **One operation** is done as it should be. -/
theorem lawful_step {c : Cursor} (hc : c.Valid) (operation : Operation) :
    (step Operation.read c operation).Lawful := by
  have hdoes := operation.does_read c
  unfold step
  by_cases hp : operation.Possible c
  · obtain ⟨a, ha, hgives⟩ := hdoes.ok hp
    rw [ha]
    constructor
    case buffer => rfl
    case valid => exact Operation.target_le hc hp
    case succeeds => exact ⟨fun _ => hp, fun _ => ⟨a, rfl⟩⟩
    case moves => exact fun _ _ => rfl
    case gives =>
      intro _ h
      cases h
      exact Operation.gives_passed hgives
    case fails =>
      intro _ h
      cases h
  · rw [hdoes.error hp]
    constructor
    case buffer => rfl
    case valid => exact hc
    case succeeds =>
      constructor
      · rintro ⟨_, h⟩
        cases h
      · exact fun h => absurd h hp
    case moves =>
      intro _ h
      cases h
    case gives =>
      intro _ h
      cases h
    case fails =>
      intro _ h
      cases h
      exact ⟨rfl, rfl⟩

/-- The buffer stays what it was. -/
theorem buffer_step {c : Cursor} (hc : c.Valid) (operation : Operation) :
    (step Operation.read c operation).after.buffer = c.buffer := by
  rw [(lawful_step hc operation).buffer, before_step]

/-- **Each operation of a run** is done as it should be, in the same buffer. -/
theorem lawful_of_mem_run {c : Cursor} (hc : c.Valid) {operations : List Operation} {e : Event}
    (he : e ∈ run Operation.read c operations) : e.before.buffer = c.buffer ∧ e.Lawful := by
  induction operations generalizing c with
  | nil => cases he
  | cons operation rest ih =>
    have hstep := lawful_step hc operation
    rcases List.mem_cons.mp he with rfl | he
    · exact ⟨by rw [before_step], hstep⟩
    · -- the rest starts at a cursor that is valid again
      obtain ⟨hbuffer, hlawful⟩ := ih hstep.valid he
      rw [buffer_step hc] at hbuffer
      exact ⟨hbuffer, hlawful⟩

end Cursor
end Tablespace
