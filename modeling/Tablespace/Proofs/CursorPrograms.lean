import Tablespace.Bytes.Cursor

/-! # What programs do at a cursor

Each of the programs that read at a cursor has a condition under which it succeeds. Then it gives
something and moves the cursor; else it fails, and the cursor is what it was.

* `Read.Does`: what a program does, if it is possible and if it is not.
* `Read.does_peek`, `does_skip`, `does_rewind`, `does_seek`: programs that look at the bounds.
* `Read.does_bytes`, `does_unsigned`, `does_signed`, `does_text`, `does_uint`: programs made of
  those. -/

namespace Tablespace.Read

/-- **What a program does at a cursor**: where it is possible, it gives something as described and
moves to the target; elsewhere it fails by the failure and leaves the cursor. -/
structure Does (r : Read α) (c : Cursor) (possible : Prop) (target : Nat) (gives : α → Prop)
    (failure : ReadError) : Prop where
  ok : possible → ∃ a, r c = .ok a { c with position := target } ∧ gives a
  error : ¬ possible → r c = .error failure c

namespace Does
variable {r : Read α} {c : Cursor} {possible : Prop} {target : Nat} {gives : α → Prop}
  {failure : ReadError}

theorem map (h : r.Does c possible target gives failure) {f : α → β} {gives' : β → Prop}
    (hf : ∀ a, gives a → gives' (f a)) : (f <$> r).Does c possible target gives' failure := by
  constructor
  case ok =>
    intro hp
    obtain ⟨a, ha, hgives⟩ := h.ok hp
    exact ⟨f a, by simp only [Functor.map, EStateM.map, ha], hf a hgives⟩
  case error =>
    intro hp
    simp only [Functor.map, EStateM.map, h.error hp]

theorem runAt (h : r.Does c possible target gives failure) (hp : possible) :
    ∃ a, r.runAt c = .ok (a, { c with position := target }) ∧ gives a := by
  obtain ⟨a, ha, hgives⟩ := h.ok hp
  exact ⟨a, by rw [Read.runAt, ha], hgives⟩

theorem runAt_error (h : r.Does c possible target gives failure) (hp : ¬ possible) :
    r.runAt c = .error failure := by
  rw [Read.runAt, h.error hp]

end Does

variable (c : Cursor) (n : Nat)

/-! ### Programs that look at the bounds -/

theorem does_peek : (peek n).Does c (n ≤ c.remaining) c.position
    (· = c.buffer.bytes c.position n) (.outOfBounds c.position n c.buffer.size) where
  ok h := ⟨_, if_pos h, rfl⟩
  error h := if_neg h

theorem does_skip : (skip n).Does c (n ≤ c.remaining) (c.position + n) (fun _ => True)
    (.outOfBounds c.position n c.buffer.size) where
  ok h := ⟨(), if_pos h, trivial⟩
  error h := if_neg h

theorem does_rewind : (rewind n).Does c (n ≤ c.position) (c.position - n) (fun _ => True)
    (.outOfBounds c.position n c.buffer.size) where
  ok h := ⟨(), if_pos h, trivial⟩
  error h := if_neg h

theorem does_seek (position : Nat) : (seek position).Does c (position ≤ c.buffer.size) position
    (fun _ => True) (.outOfBounds position 0 c.buffer.size) where
  ok h := ⟨(), if_pos h, trivial⟩
  error h := if_neg h

/-! ### Programs made of them -/

/-- **Bytes are read** where there are so many. What passes over them is not reached where the look
at them fails, so that nothing moves. -/
theorem does_bytes : (bytes n).Does c (n ≤ c.remaining) (c.position + n)
    (· = c.buffer.bytes c.position n) (.outOfBounds c.position n c.buffer.size) := by
  constructor
  case ok =>
    intro h
    obtain ⟨l, hpeek, hl⟩ := (does_peek c n).ok h
    obtain ⟨_, hskip, -⟩ := (does_skip c n).ok h
    refine ⟨l, ?_, hl⟩
    simp only [bytes, bind, EStateM.bind, hpeek, hskip, pure, EStateM.pure]
  case error =>
    intro h
    simp only [bytes, bind, EStateM.bind, (does_peek c n).error h]

/-- Bytes are read, and something is made of them. -/
theorem does_of_bytes (f : List UInt8 → α) :
    (return f (← bytes n) : Read α).Does c (n ≤ c.remaining) (c.position + n)
      (· = f (c.buffer.bytes c.position n)) (.outOfBounds c.position n c.buffer.size) := by
  rw [bind_pure_comp]
  exact (does_bytes c n).map fun _ => congrArg f

theorem does_unsigned : (unsigned n).Does c (n ≤ c.remaining) (c.position + n)
    (· = c.buffer.uint c.position n) (.outOfBounds c.position n c.buffer.size) :=
  does_of_bytes c n bigEndian

theorem does_signed : (signed n).Does c (n ≤ c.remaining) (c.position + n)
    (· = Int.bmod (c.buffer.uint c.position n) (Nat.pow 256 n))
    (.outOfBounds c.position n c.buffer.size) :=
  does_of_bytes c n fun l => Int.bmod (bigEndian l) (Nat.pow 256 n)

theorem does_text : (text n).Does c (n ≤ c.remaining) (c.position + n)
    (· = Utf8.decode (c.buffer.bytes c.position n)) (.outOfBounds c.position n c.buffer.size) :=
  does_of_bytes c n Utf8.decode

/-- **A number of any width is read** where it has one to eight bytes and these are there. -/
theorem does_uint : (uint n).Does c ((1 ≤ n ∧ n ≤ 8) ∧ n ≤ c.remaining) (c.position + n)
    (· = c.buffer.uint c.position n)
    (if 1 ≤ n ∧ n ≤ 8 then .outOfBounds c.position n c.buffer.size else .width n) := by
  unfold uint
  by_cases hwidth : 1 ≤ n ∧ n ≤ 8
  · rw [if_neg (by omega), if_pos hwidth]
    constructor
    case ok => exact fun h => (does_unsigned c n).ok h.2
    case error => exact fun h => (does_unsigned c n).error fun hn => h ⟨hwidth, hn⟩
  · rw [if_pos (by omega), if_neg hwidth]
    constructor
    case ok => exact fun h => absurd h.1 hwidth
    case error => exact fun _ => rfl

end Tablespace.Read
