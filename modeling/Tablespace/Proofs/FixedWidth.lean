import Tablespace.Page.Body
import Tablespace.Proofs.Reads

/-! # Reads of fixed width

The headers and descriptors of a page have a width that does not depend on what they say. Their
reads take as many bytes as that, wherever there are so many, and each field of the result is the
number at its own offset from where the read began.

* `Read.Takes`: a read of fixed width, and what it gives. Reads one after the other are reads of
  fixed width again.
* `ListNode.ofBytes`, `SpaceHeader.ofBytes`, `Inode.ofBytes` and others: the parts of a page, field
  by field in terms of its bytes. Beside each stands that its read takes its width.
* `Buffer.readFrom_of_takes`: such a read succeeds wherever there is room for it. -/

namespace Tablespace

namespace Read

/-- **A read of fixed width**: where there are `n` bytes it gives what they say, and moves on behind
them. -/
structure Takes (r : Read α) (n : Nat) (value : Buffer → Nat → α) : Prop where
  runAt : ∀ c : Cursor, c.position + n ≤ c.buffer.size →
    r.runAt c = .ok (value c.buffer c.position, { c with position := c.position + n })

namespace Takes
variable {r : Read α} {m n : Nat} {value : Buffer → Nat → α}

theorem pure (a : α) : Takes (Pure.pure a) 0 fun _ _ => a := ⟨fun _ _ => rfl⟩

theorem bytes (n : Nat) : Takes (Read.bytes n) n fun b i => b.bytes i n := ⟨fun _ => runAt_bytes⟩

theorem unsigned (n : Nat) : Takes (Read.unsigned n) n fun b i => b.uint i n :=
  ⟨fun _ => runAt_unsigned⟩

theorem skip (n : Nat) : Takes (Read.skip n) n fun _ _ => () := by
  constructor
  intro c hc
  obtain ⟨_, h, -⟩ := (does_skip c n).runAt (le_remaining hc)
  exact h

theorem map (hr : Takes r n value) (f : α → β) : Takes (f <$> r) n fun b i => f (value b i) := by
  constructor
  intro c hc
  rw [map_eq_pure_bind, runAt_bind (hr.runAt c hc)]
  rfl

/-- **One read after the other**, the second of which begins where the first ends. -/
theorem bind {f : α → Read β} {value' : α → Buffer → Nat → β} (hr : Takes r m value)
    (hf : ∀ a, Takes (f a) n (value' a)) :
    Takes (r >>= f) (m + n) fun b i => value' (value b i) b (i + m) := by
  constructor
  intro c hc
  have hrest : c.position + m + n ≤ c.buffer.size := by omega
  rw [runAt_bind (hr.runAt c (by omega)), (hf _).runAt _ hrest]
  simp only [Nat.add_assoc]

end Takes
end Read

/-- **A read of fixed width succeeds** wherever there is room for it. -/
theorem Buffer.readFrom_of_takes {r : Read α} {n : Nat} {value : Buffer → Nat → α}
    (h : r.Takes n value) {b : Buffer} {i : Nat} (hi : i + n ≤ b.size) :
    b.readFrom i r = .ok (value b i) :=
  readFrom_eq_ok.mpr ⟨by omega, _, h.runAt ⟨b, i⟩ hi⟩

open Read

/-! ### Lists that run through pages -/

/-- A place in the file, at its offset. -/
def FileAddress.ofBytes (b : Buffer) (i : Nat) : FileAddress where
  page := b.uint i 4
  offset := b.uint (i + 4) 2

theorem FileAddress.takes_read : Takes read 6 ofBytes :=
  .bind (.unsigned 4) fun _ => .bind (.unsigned 2) fun _ => .pure _

/-- A node of a list, at its offset. -/
def ListNode.ofBytes (b : Buffer) (i : Nat) : ListNode where
  prev := .ofBytes b i
  next := .ofBytes b (i + 6)

theorem ListNode.takes_read : Takes read 12 ofBytes :=
  .bind FileAddress.takes_read fun _ => .bind FileAddress.takes_read fun _ => .pure _

/-- The base of a list, at its offset. -/
def ListBase.ofBytes (b : Buffer) (i : Nat) : ListBase where
  length := b.uint i 4
  first := .ofBytes b (i + 4)
  last := .ofBytes b (i + 10)

theorem ListBase.takes_read : Takes read 16 ofBytes :=
  .bind (.unsigned 4) fun _ => .bind FileAddress.takes_read fun _ =>
  .bind FileAddress.takes_read fun _ => .pure _

/-! ### Headers -/

/-- The header of a space, at its offset. -/
def SpaceHeader.ofBytes (b : Buffer) (i : Nat) : SpaceHeader where
  spaceId := b.uint i 4
  size := b.uint (i + 8) 4
  freeLimit := b.uint (i + 12) 4
  flags := b.uint (i + 16) 4
  fragmentsUsed := b.uint (i + 20) 4
  free := .ofBytes b (i + 24)
  freeFragments := .ofBytes b (i + 40)
  fullFragments := .ofBytes b (i + 56)
  nextSegmentId := b.uint (i + 72) 8
  fullInodes := .ofBytes b (i + 80)
  freeInodes := .ofBytes b (i + 96)

theorem SpaceHeader.takes_read : Takes read 112 ofBytes :=
  .bind (.unsigned 4) fun _ => .bind (.skip 4) fun _ => .bind (.unsigned 4) fun _ =>
  .bind (.unsigned 4) fun _ => .bind (.unsigned 4) fun _ => .bind (.unsigned 4) fun _ =>
  .bind ListBase.takes_read fun _ => .bind ListBase.takes_read fun _ =>
  .bind ListBase.takes_read fun _ => .bind (.unsigned 8) fun _ =>
  .bind ListBase.takes_read fun _ => .bind ListBase.takes_read fun _ => .pure _

/-! ### Segments -/

namespace Inode

/-- The pages that a segment owns one by one, of `n` places from an offset on. -/
def fragmentsOf (b : Buffer) (i n : Nat) : List Nat :=
  (List.range n).filterMap fun j => pageLink (b.uint (i + 4 * j) 4)

theorem fragmentsOf_succ (b : Buffer) (i n : Nat) :
    fragmentsOf b i (n + 1) = (pageLink (b.uint i 4)).toList ++ fragmentsOf b (i + 4) n := by
  have hshift : ∀ j, i + 4 * (j + 1) = i + 4 + 4 * j := fun j => by omega
  unfold fragmentsOf
  rw [List.range_succ_eq_map, List.filterMap_cons, List.filterMap_map]
  simp only [Function.comp_def, Nat.succ_eq_add_one, hshift, Nat.mul_zero, Nat.add_zero]
  cases pageLink (b.uint i 4) <;> rfl

theorem takes_readFragments (n : Nat) :
    Takes (readFragments n) (4 * n) fun b i => fragmentsOf b i n := by
  induction n with
  | zero => exact .pure _
  | succ n ih =>
    have h : Takes (readFragments (n + 1)) (4 + (4 * n + 0)) fun b i =>
        (pageLink (b.uint i 4)).toList ++ fragmentsOf b (i + 4) n :=
      .bind (.unsigned 4) fun _ => .bind ih fun _ => .pure _
    simp only [← fragmentsOf_succ] at h
    rwa [show 4 * (n + 1) = 4 + (4 * n + 0) by omega]

/-- The segment of a slot, at its offset. -/
def ofBytes (slot : Nat) (b : Buffer) (i : Nat) : Inode where
  slot
  segmentId := b.uint i 8
  notFullUsed := b.uint (i + 8) 4
  free := .ofBytes b (i + 12)
  notFull := .ofBytes b (i + 28)
  full := .ofBytes b (i + 44)
  magic := b.uint (i + 60) 4
  fragments := fragmentsOf b (i + 64) fragmentSlots

theorem takes_read (slot : Nat) : Takes (read slot) size (ofBytes slot) :=
  .bind (.unsigned 8) fun _ => .bind (.unsigned 4) fun _ => .bind ListBase.takes_read fun _ =>
  .bind ListBase.takes_read fun _ => .bind ListBase.takes_read fun _ => .bind (.unsigned 4) fun _ =>
  .bind (takes_readFragments fragmentSlots) fun _ => .pure _

end Inode
end Tablespace
