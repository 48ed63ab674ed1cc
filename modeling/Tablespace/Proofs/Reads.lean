import Tablespace.Proofs.CursorPrograms
import Tablespace.Proofs.Loading

/-! # What reads give

A read that stays in its buffer gives what the bytes there write, and moves on behind them. What a
read has given is told from its steps, each with the cursor that the one before has left.

* `Read.runAt_bytes`, `Read.runAt_unsigned`, `Read.runAt_signed`: what reads give.
* `Read.runAt_bind_eq_ok`, `Read.runAt_unsigned_eq_ok`: when reads succeed.
* `Read.runAt_of_unsigned_bind`: what goes on after a number.
* `Buffer.readFrom_eq_ok`: when a read from a position of a buffer succeeds. -/

namespace Tablespace

theorem Buffer.bytes_add (b : Buffer) (start m n : Nat) :
    b.bytes start (m + n) = b.bytes start m ++ b.bytes (start + m) n := by
  induction m generalizing start with
  | zero => simp [bytes]
  | succ m ih =>
    rw [show m + 1 + n = m + n + 1 by omega, bytes, bytes, ih, List.cons_append,
      show start + 1 + m = start + (m + 1) by omega]

namespace Read
variable {c c' : Cursor}

theorem runAt_bind {r : Read α} {f : α → Read β} {a : α} (h : r.runAt c = .ok (a, c')) :
    (r >>= f).runAt c = (f a).runAt c' := by
  unfold runAt at h ⊢
  simp only [bind, EStateM.bind]
  cases e : r c with
  | ok b d =>
    rw [e] at h
    cases h
    rfl
  | error e' d =>
    rw [e] at h
    cases h

theorem le_remaining {n : Nat} (h : c.position + n ≤ c.buffer.size) : n ≤ c.remaining := by
  unfold Cursor.remaining
  omega

theorem runAt_bytes {n : Nat} (h : c.position + n ≤ c.buffer.size) :
    (bytes n).runAt c =
      .ok (c.buffer.bytes c.position n, { c with position := c.position + n }) := by
  obtain ⟨_, hl, rfl⟩ := (does_bytes c n).runAt (le_remaining h)
  exact hl

theorem runAt_unsigned {n : Nat} (h : c.position + n ≤ c.buffer.size) :
    (unsigned n).runAt c =
      .ok (bigEndian (c.buffer.bytes c.position n), { c with position := c.position + n }) := by
  obtain ⟨_, hv, rfl⟩ := (does_unsigned c n).runAt (le_remaining h)
  exact hv

theorem runAt_signed {n : Nat} (h : c.position + n ≤ c.buffer.size) :
    (signed n).runAt c = .ok (Int.bmod (bigEndian (c.buffer.bytes c.position n)) (Nat.pow 256 n),
      { c with position := c.position + n }) := by
  obtain ⟨_, hz, rfl⟩ := (does_signed c n).runAt (le_remaining h)
  exact hz

/-! ### Reads that succeed -/

theorem runAt_bind_eq_ok {r : Read α} {f : α → Read β} {b : β} :
    (r >>= f).runAt c = .ok (b, c') ↔
      ∃ a d, r.runAt c = .ok (a, d) ∧ (f a).runAt d = .ok (b, c') := by
  constructor
  · intro h
    unfold runAt at h
    simp only [bind, EStateM.bind] at h
    cases hr : r c with
    | ok a d =>
      rw [hr] at h
      exact ⟨a, d, by rw [runAt, hr], h⟩
    | error e d =>
      rw [hr] at h
      cases h
  · rintro ⟨a, d, hr, hf⟩
    rw [runAt_bind hr, hf]

theorem runAt_pure_eq_ok {a b : α} : (pure a : Read α).runAt c = .ok (b, c') ↔ a = b ∧ c = c' := by
  simp [runAt, pure, EStateM.pure]

/-- **A number is read** where its bytes lie in the buffer, and nowhere else. -/
theorem runAt_unsigned_eq_ok {n v : Nat} (hn : 0 < n) :
    (unsigned n).runAt c = .ok (v, c') ↔ c.position + n ≤ c.buffer.size ∧
      c.buffer.uint c.position n = v ∧ { c with position := c.position + n } = c' := by
  by_cases h : c.position + n ≤ c.buffer.size
  · rw [runAt_unsigned h]
    simp [Buffer.uint, h]
  · have hshort : ¬ n ≤ c.remaining := by
      unfold Cursor.remaining
      omega
    rw [(does_unsigned c n).runAt_error hshort]
    simp [h]

theorem runAt_map_eq_ok {f : α → β} {r : Read α} {b : β} :
    (f <$> r).runAt c = .ok (b, c') ↔ ∃ a, r.runAt c = .ok (a, c') ∧ f a = b := by
  rw [map_eq_pure_bind, runAt_bind_eq_ok]
  simp only [runAt_pure_eq_ok]
  constructor
  · rintro ⟨a, d, hr, hb, rfl⟩
    exact ⟨a, hr, hb⟩
  · rintro ⟨a, hr, hb⟩
    exact ⟨a, c', hr, hb, rfl⟩

/-- What goes on after a number that was read. -/
theorem runAt_of_unsigned_bind {n : Nat} (hn : 0 < n) {f : Nat → Read α} {x : α × Cursor}
    (h : (unsigned n >>= f).runAt c = .ok x) :
    (f (c.buffer.uint c.position n)).runAt { c with position := c.position + n } = .ok x := by
  obtain ⟨a, d, hr, hf⟩ := runAt_bind_eq_ok.mp h
  obtain ⟨-, rfl, rfl⟩ := (runAt_unsigned_eq_ok hn).mp hr
  exact hf

end Read

theorem Buffer.readFrom_eq_ok {b : Buffer} {position : Nat} {r : Read α} {a : α} :
    b.readFrom position r = .ok a ↔
      position ≤ b.size ∧ ∃ c, r.runAt ⟨b, position⟩ = .ok (a, c) := by
  unfold readFrom Read.from? Cursor.at?
  simp only [mapError_eq_ok, bind_eq_ok, pure_eq_ok]
  constructor
  · rintro ⟨c, hc, ⟨_, d⟩, hr, rfl⟩
    split at hc
    · next hp =>
      cases hc
      exact ⟨hp, d, hr⟩
    · cases hc
  · rintro ⟨hp, c, hr⟩
    exact ⟨_, if_pos hp, _, hr, rfl⟩

/-- **Two numbers of four bytes** are read where there are eight bytes, and nowhere else. -/
theorem Buffer.readFrom_u32_u32 {b : Buffer} {position : Nat} {x : Nat × Nat} :
    b.readFrom position (do
      let first ← Read.u32
      let second ← Read.u32
      return (first, second)) = .ok x ↔
    position + 8 ≤ b.size ∧ x = (b.uint position 4, b.uint (position + 4) 4) := by
  simp only [readFrom_eq_ok, Read.runAt_bind_eq_ok, Read.u32,
    Read.runAt_unsigned_eq_ok (show 0 < 4 by decide), Read.runAt_pure_eq_ok]
  constructor
  · rintro ⟨-, _, _, _, ⟨-, rfl, rfl⟩, _, _, ⟨h, rfl, rfl⟩, rfl, -⟩
    exact ⟨h, rfl⟩
  · rintro ⟨h, rfl⟩
    have hfirst : position + 4 ≤ b.size := by omega
    exact ⟨by omega, _, _, _, ⟨hfirst, rfl, rfl⟩, _, _, ⟨h, rfl, rfl⟩, rfl, rfl⟩

end Tablespace
