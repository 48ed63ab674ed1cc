import Tablespace.Proofs.CursorRuns

/-! # Cursors in words

The positions of a cursor and the arguments of its operations are words of 64 bits. A position and
an argument together may be more than a word, and such a sum wraps around. Here the programs are put
down in words. They look at a sum before they use it, and so they do what those do that have numbers
of any size.

* `Words.add?`: the sum of two words, if it is a word. `Words.stop?`: the position behind some
  bytes, if they are there.
* `Words.peek`, `skip`, `bytes`, `rewind`, `seek` and those made of them: the programs in words.
  `Words.peek_eq` and so on: each does what the one in numbers does.
* `Words.run_program`: a run in words is the run in numbers.
* `Cursor.run_lawful`: any run of operations is safe, in numbers and in words. -/

namespace Tablespace.Cursor

namespace Words

/-! ### Programs in words -/

/-- The sum of two words, if it is a word. -/
def add? (a b : UInt64) : Option UInt64 :=
  if a.toNat + b.toNat < UInt64.size then some (a + b) else none

/-- The position of a cursor. -/
def position (c : Cursor) : UInt64 := .ofNat c.position

/-- The size of the buffer of a cursor. -/
def size (c : Cursor) : UInt64 := .ofNat c.buffer.size

/-- The position behind the next `n` bytes, if there are so many. -/
def stop? (c : Cursor) (n : UInt64) : Option UInt64 :=
  match add? (position c) n with
  | some stop => if stop ≤ size c then some stop else none
  | none => none

/-- The next `n` bytes, the position unmoved. -/
def peek (n : UInt64) : Read (List UInt8) := fun c =>
  match stop? c n with
  | some stop => .ok (c.buffer.bytes c.position (stop - position c).toNat) c
  | none => Read.outOfBounds n.toNat c

/-- Pass over `n` bytes. -/
def skip (n : UInt64) : Read Unit := fun c =>
  match stop? c n with
  | some stop => .ok () { c with position := stop.toNat }
  | none => Read.outOfBounds n.toNat c

/-- Move on by `n` bytes, without a look at the sum. -/
def advance (n : UInt64) : Read Unit := fun c =>
  .ok () { c with position := (position c + n).toNat }

/-- The next `n` bytes, and move on behind them. -/
def bytes (n : UInt64) : Read (List UInt8) := do
  let l ← peek n
  advance n
  return l

/-- Move back by `n` bytes. -/
def rewind (n : UInt64) : Read Unit := fun c =>
  if n ≤ position c then .ok () { c with position := (position c - n).toNat }
  else Read.outOfBounds n.toNat c

/-- Move to an absolute position, the end of the buffer included. -/
def seek (p : UInt64) : Read Unit := fun c =>
  if p ≤ size c then .ok () { c with position := p.toNat }
  else .error (.outOfBounds p.toNat 0 c.buffer.size) c

/-- The unsigned number in the next `n` bytes. -/
def unsigned (n : UInt64) : Read Nat := return bigEndian (← bytes n)

/-- The two's complement number in the next `n` bytes. -/
def signed (n : UInt64) : Read Int := return Int.bmod (bigEndian (← bytes n)) (Nat.pow 256 n.toNat)

/-- The unsigned number in the next `n` bytes, where `n` is 1 to 8. -/
def uint (n : UInt64) : Read Nat := if n = 0 ∨ 8 < n then throw (.width n.toNat) else unsigned n

/-- The next `n` bytes as UTF-8 text, ill-formed parts replaced. -/
def text (n : UInt64) : Read String := return Utf8.decode (← bytes n)

/-- **The program of an operation**, in words. -/
def program : Operation → Read Answer
  | .u8 => .unsigned <$> unsigned 1
  | .u16 => .unsigned <$> unsigned 2
  | .u32 => .unsigned <$> unsigned 4
  | .u48 => .unsigned <$> unsigned 6
  | .u64 => .unsigned <$> unsigned 8
  | .i16 => .signed <$> signed 2
  | .i64 => .signed <$> signed 8
  | .uint n => .unsigned <$> uint n
  | .bytes n | .copy n => .bytes <$> bytes n
  | .text n => .text <$> text n
  | .peek n => .bytes <$> peek n
  | .skip n => (fun _ => .nothing) <$> skip n
  | .rewind n => (fun _ => .nothing) <$> rewind n
  | .seek p => (fun _ => .nothing) <$> seek p

/-! ### What they do -/

theorem toNat_add_of_lt {a b : UInt64} (h : a.toNat + b.toNat < UInt64.size) :
    (a + b).toNat = a.toNat + b.toNat := by
  rw [UInt64.toNat_add]
  exact Nat.mod_eq_of_lt h

/-- Programs that agree at a cursor do so whatever is made of what they give. -/
theorem map_congr {r r' : Read α} {c : Cursor} (h : r c = r' c) (f : α → β) :
    (f <$> r) c = (f <$> r') c := by
  simp only [Functor.map, EStateM.map, h]

section
variable {c : Cursor} (hc : c.Valid) (hsize : c.buffer.size < UInt64.size)

include hc in
theorem le_remaining_iff {n : Nat} : n ≤ c.remaining ↔ c.position + n ≤ c.buffer.size := by
  unfold Valid at hc
  unfold remaining
  omega

include hsize in
theorem le_size_iff {p : UInt64} : p ≤ size c ↔ p.toNat ≤ c.buffer.size := by
  have htoNat : (size c).toNat = c.buffer.size := UInt64.toNat_ofNat_of_lt' hsize
  rw [UInt64.le_iff_toNat_le, htoNat]

include hc hsize

theorem toNat_position : (position c).toNat = c.position :=
  UInt64.toNat_ofNat_of_lt' (Nat.lt_of_le_of_lt hc hsize)

/-- Where there are `n` bytes, the position behind them is a word. -/
theorem toNat_position_add {n : UInt64} (hn : n.toNat ≤ c.remaining) :
    (position c).toNat + n.toNat < UInt64.size ∧
      (position c + n).toNat = c.position + n.toNat := by
  have hposition := toNat_position hc hsize
  have hle := (le_remaining_iff hc).mp hn
  have hword : (position c).toNat + n.toNat < UInt64.size := by omega
  exact ⟨hword, by rw [toNat_add_of_lt hword, hposition]⟩

theorem stop?_of_le {n : UInt64} (hn : n.toNat ≤ c.remaining) :
    stop? c n = some (position c + n) := by
  obtain ⟨hword, hstop⟩ := toNat_position_add hc hsize hn
  have hle : (position c + n).toNat ≤ c.buffer.size := by
    rw [hstop]
    exact (le_remaining_iff hc).mp hn
  unfold stop? add?
  rw [if_pos hword]
  exact if_pos ((le_size_iff hsize).mpr hle)

/-- **Where there are fewer bytes, there is no position behind them**, whether the sum is a word or
not. -/
theorem stop?_of_not_le {n : UInt64} (hn : ¬ n.toNat ≤ c.remaining) : stop? c n = none := by
  have hposition := toNat_position hc hsize
  rw [le_remaining_iff hc, ← hposition] at hn
  unfold stop? add?
  by_cases hword : (position c).toNat + n.toNat < UInt64.size
  · rw [if_pos hword]
    refine if_neg fun hle => hn ?_
    rwa [le_size_iff hsize, toNat_add_of_lt hword] at hle
  · rw [if_neg hword]

theorem peek_eq (n : UInt64) : peek n c = Read.peek n.toNat c := by
  unfold peek Read.peek
  by_cases hn : n.toNat ≤ c.remaining
  · have hpassed : (position c + n - position c).toNat = n.toNat := by
      rw [UInt64.add_comm, UInt64.add_sub_cancel]
    rw [stop?_of_le hc hsize hn, if_pos hn]
    simp only [hpassed]
  · rw [stop?_of_not_le hc hsize hn, if_neg hn]

theorem skip_eq (n : UInt64) : skip n c = Read.skip n.toNat c := by
  unfold skip Read.skip
  by_cases hn : n.toNat ≤ c.remaining
  · rw [stop?_of_le hc hsize hn, if_pos hn]
    simp only [toNat_position_add hc hsize hn]
  · rw [stop?_of_not_le hc hsize hn, if_neg hn]

/-- Bytes are read alike: once they have been seen, the sum by which the position moves is known to
be a word. -/
theorem bytes_eq (n : UInt64) : bytes n c = Read.bytes n.toNat c := by
  have hpeek := peek_eq hc hsize n
  by_cases hn : n.toNat ≤ c.remaining
  · obtain ⟨l, hl, -⟩ := (Read.does_peek c n.toNat).ok hn
    obtain ⟨_, hskip, -⟩ := (Read.does_skip c n.toNat).ok hn
    rw [hl] at hpeek
    simp only [bytes, Read.bytes, bind, EStateM.bind, hpeek, hl, hskip, advance, pure,
      EStateM.pure, toNat_position_add hc hsize hn]
  · rw [(Read.does_peek c n.toNat).error hn] at hpeek
    simp only [bytes, bind, EStateM.bind, hpeek, (Read.does_bytes c n.toNat).error hn]

theorem of_bytes_eq (n : UInt64) (f : List UInt8 → α) :
    (return f (← bytes n) : Read α) c = (return f (← Read.bytes n.toNat) : Read α) c := by
  rw [bind_pure_comp, bind_pure_comp]
  exact map_congr (bytes_eq hc hsize n) f

theorem rewind_eq (n : UInt64) : rewind n c = Read.rewind n.toNat c := by
  have hposition := toNat_position hc hsize
  have hiff : n ≤ position c ↔ n.toNat ≤ c.position := by rw [UInt64.le_iff_toNat_le, hposition]
  unfold rewind Read.rewind
  by_cases hn : n ≤ position c
  · rw [if_pos hn, if_pos (hiff.mp hn), UInt64.toNat_sub_of_le _ _ hn, hposition]
  · rw [if_neg hn, if_neg fun h => hn (hiff.mpr h)]

omit hc in
theorem seek_eq (p : UInt64) : seek p c = Read.seek p.toNat c := by
  unfold seek Read.seek
  simp only [le_size_iff hsize]

theorem unsigned_eq (n : UInt64) : unsigned n c = Read.unsigned n.toNat c :=
  of_bytes_eq hc hsize n bigEndian

theorem signed_eq (n : UInt64) : signed n c = Read.signed n.toNat c :=
  of_bytes_eq hc hsize n fun l => Int.bmod (bigEndian l) (Nat.pow 256 n.toNat)

theorem text_eq (n : UInt64) : text n c = Read.text n.toNat c :=
  of_bytes_eq hc hsize n Utf8.decode

theorem uint_eq (n : UInt64) : uint n c = Read.uint n.toNat c := by
  have hwidth : n = 0 ∨ 8 < n ↔ n.toNat = 0 ∨ 8 < n.toNat := by
    rw [← UInt64.toNat_inj, UInt64.lt_iff_toNat_lt]
    rfl
  unfold uint Read.uint
  by_cases h : n = 0 ∨ 8 < n
  · rw [if_pos h, if_pos (hwidth.mp h)]
  · rw [if_neg h, if_neg fun h' => h (hwidth.mpr h'), unsigned_eq hc hsize]

/-- **An operation does in words what it does in numbers.** -/
theorem program_eq (operation : Operation) : program operation c = operation.read c := by
  cases operation with
  | u8 | u16 | u32 | u48 | u64 => exact map_congr (unsigned_eq hc hsize _) _
  | i16 | i64 => exact map_congr (signed_eq hc hsize _) _
  | uint n => exact map_congr (uint_eq hc hsize n) _
  | bytes n | copy n => exact map_congr (bytes_eq hc hsize n) _
  | text n => exact map_congr (text_eq hc hsize n) _
  | peek n => exact map_congr (peek_eq hc hsize n) _
  | skip n => exact map_congr (skip_eq hc hsize n) _
  | rewind n => exact map_congr (rewind_eq hc hsize n) _
  | seek p => exact map_congr (seek_eq hsize p) _

/-- **A run in words is the run in numbers.** -/
theorem run_program (operations : List Operation) :
    run program c operations = run Operation.read c operations := by
  -- after each operation the cursor is valid and its buffer the same, so that its size is a word
  induction operations generalizing c with
  | nil => rfl
  | cons operation rest ih =>
    have hstep : step program c operation = step Operation.read c operation := by
      unfold step
      rw [program_eq hc hsize]
    have hsize' : (step Operation.read c operation).after.buffer.size < UInt64.size := by
      rw [buffer_step hc]
      exact hsize
    rw [run, run, hstep, ih (lawful_step hc operation).valid hsize']

end
end Words

/-- **A cursor is safe in any run of operations**, whatever its buffer and their arguments. All of
them are done, in the same buffer, and the position never exceeds its size. An operation that fails
leaves the cursor; bytes are read or passed over where there are so many, and nowhere else; a number
that is read is that of the bytes it passes. In words the run is the same, also where a position and
an argument together are more than a word. -/
theorem run_lawful {c : Cursor} (hc : c.Valid) (operations : List Operation) :
    (run Operation.read c operations).map Event.operation = operations ∧
    (∀ e ∈ run Operation.read c operations, e.before.buffer = c.buffer ∧ e.Lawful) ∧
    (c.buffer.size < UInt64.size →
      run Words.program c operations = run Operation.read c operations) :=
  ⟨map_operation_run _ c operations, fun _ he => lawful_of_mem_run hc he,
    fun hsize => Words.run_program hc hsize operations⟩

/-- Three bytes, a number that ends behind them, and arguments that with the position are more than
a word. -/
theorem run_lawful_threeBytes :
    (let c := start (.ofList [0x07, 0xFF, 0xCE])
      let operations : List Operation := [.skip 2, .u16, .skip 0xFFFFFFFFFFFFFFFF,
        .bytes 0xFFFFFFFFFFFFFFFE, .rewind 1, .i16, .seek 0, .uint 9, .uint 3]
      c.Valid ∧ c.buffer.size < UInt64.size ∧
      (∀ e ∈ run Operation.read c operations, e.before.buffer = c.buffer ∧ e.Lawful) ∧
      (run Words.program c operations).map (fun e => (e.answer, e.after.position)) =
        [(.ok .nothing, 2), (.error (.outOfBounds 2 2 3), 2),
          (.error (.outOfBounds 2 0xFFFFFFFFFFFFFFFF 3), 2),
          (.error (.outOfBounds 2 0xFFFFFFFFFFFFFFFE 3), 2), (.ok .nothing, 1),
          (.ok (.signed (-50)), 3), (.ok .nothing, 0), (.error (.width 9), 0),
          (.ok (.unsigned 0x07FFCE), 3)]) := by
  intro c operations
  have hc : c.Valid := valid_start _
  have hsize : c.buffer.size < UInt64.size := by decide
  obtain ⟨-, hlawful, hwords⟩ := run_lawful hc operations
  refine ⟨hc, hsize, hlawful, ?_⟩
  rw [hwords hsize]
  decide +kernel

end Tablespace.Cursor
