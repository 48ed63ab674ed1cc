import Tablespace.Proofs.PageErrors

/-! # The slots of structural pages

A page of extents and a page of inodes are arrays of slots of a fixed size, of which those before
the first free one are in use. Each slot is decoded from its own bytes, though the reads of
descriptors follow one another and a free slot ends them halfway. All slots lie in the page, so that
no page of extents fails; a page of inodes fails by a slot in use that does not bear the marker.

* `SlotsInUse`: the slots before the first free one.
* `ExtentPage.Lists`, `ExtentPage.runAt_readExtents`: the descriptors of a page.
  `ExtentPage.Lists.freePages_eq`: the free pages that one counts.
* `InodePage.slotAt`, `InodePage.inodesFrom_eq`: the segments of a page, and
  `InodePage.extentCounts_of_ofPage` their extents. `InodePage.inodesFrom_eq_damaged`: the slot that
  fails the page.
* `Page.decode_slots`: what the decoding of a page gives, and what it fails by. -/

namespace Tablespace

open Read

/-! ### The first free slot -/

/-- **The slots in use** of `n` slots are those before the first that is free. -/
structure SlotsInUse (n : Nat) (free : Nat → Prop) (m : Nat) : Prop where
  le : m ≤ n
  used : ∀ i < m, ¬ free i
  ends : m < n → free m

namespace SlotsInUse
variable {n m : Nat} {free : Nat → Prop}

theorem zero (h : 0 < n → free 0) : SlotsInUse n free 0 where
  le := Nat.zero_le _
  used := nofun
  ends := h

/-- A slot in use before others. -/
theorem succ (hused : ¬ free 0) (h : SlotsInUse n (fun i => free (i + 1)) m) :
    SlotsInUse (n + 1) free (m + 1) where
  le := Nat.succ_le_succ h.le
  used i hi := by
    cases i with
    | zero => exact hused
    | succ i => exact h.used i (Nat.lt_of_succ_lt_succ hi)
  ends hlt := h.ends (Nat.lt_of_succ_lt_succ hlt)

/-- The slots in use after the first one. -/
theorem tail (free : Nat → Prop) {start : Nat}
    (h : SlotsInUse (n + 1) (fun i => free (start + i)) (m + 1)) :
    SlotsInUse n (fun i => free (start + 1 + i)) m := by
  have hshift (i : Nat) : start + 1 + i = start + (i + 1) := by omega
  constructor
  case le => exact Nat.le_of_succ_le_succ h.le
  case used =>
    intro i hi
    rw [hshift]
    exact h.used (i + 1) (Nat.succ_lt_succ hi)
  case ends =>
    intro hlt
    rw [hshift]
    exact h.ends (Nat.succ_lt_succ hlt)

/-- There are always some slots in use, if only none. -/
theorem exists_slotsInUse (n : Nat) (free : Nat → Prop) : ∃ m, SlotsInUse n free m := by
  induction n generalizing free with
  | zero => exact ⟨0, .zero nofun⟩
  | succ n ih =>
    by_cases hfree : free 0
    · exact ⟨0, .zero fun _ => hfree⟩
    · obtain ⟨m, hm⟩ := ih fun i => free (i + 1)
      exact ⟨m + 1, hm.succ hfree⟩

/-- No more slots are in use than those before the first free one, and no fewer. -/
theorem unique {m' : Nat} (h : SlotsInUse n free m) (h' : SlotsInUse n free m') : m = m' := by
  rcases Nat.lt_trichotomy m m' with hlt | heq | hgt
  · exact absurd (h.ends (Nat.lt_of_lt_of_le hlt h'.le)) (h'.used m hlt)
  · exact heq
  · exact absurd (h'.ends (Nat.lt_of_lt_of_le hgt h.le)) (h.used m' hgt)

end SlotsInUse

/-! ### Extents -/

/-- A state has a code from one to four. -/
theorem ExtentState.ofCode?_eq_none_iff {code : Nat} :
    ofCode? code = none ↔ ¬ (1 ≤ code ∧ code ≤ 4) := by
  unfold ofCode?
  split
  case h_5 h₁ h₂ h₃ h₄ =>
    have hne : code ≠ 1 ∧ code ≠ 2 ∧ code ≠ 3 ∧ code ≠ 4 := ⟨h₁, h₂, h₃, h₄⟩
    simp only [true_iff]
    omega
  all_goals simp

namespace Extent

/-- The bytes of a descriptor. -/
def size : Nat := 40

/-- A descriptor of a state, at its offset. -/
def ofBytes (state : ExtentState) (b : Buffer) (i : Nat) : Extent where
  segmentId := b.uint i 8
  node := .ofBytes b (i + 8)
  state
  bitmap := b.bytes (i + 24) 16

/-- The code of the state of a descriptor, at the offset of the descriptor. -/
def codeAt (b : Buffer) (i : Nat) : Nat := b.uint (i + 20) 4

/-- Four pages of an extent have their bits in one byte of its descriptor. -/
theorem isFree_ofBytes (state : ExtentState) (b : Buffer) (i : Nat) {page : Nat}
    (h : page < pages) :
    (ofBytes state b i).isFree page =
      (b.byte (i + 24 + page / 4)).toNat.testBit (2 * (page % 4)) := by
  have hpages : pages = 64 := rfl
  have hbyte : 2 * page / 8 = page / 4 := by omega
  have hbit : 2 * page % 8 = 2 * (page % 4) := by omega
  unfold isFree ofBytes
  rw [hbyte, hbit, List.getD_eq_getElem?_getD, Buffer.getElem?_bytes (by omega), Option.getD_some,
    decide_eq_true h, Bool.true_and]

variable {c : Cursor} (h : c.position + size ≤ c.buffer.size)
include h

/-- A descriptor is read as far as its state first. -/
theorem runAt_read?_eq : read?.runAt c =
    (match ExtentState.ofCode? (codeAt c.buffer c.position) with
      | none => return none
      | some state => do
        let bitmap ← Read.bytes 16
        return some { ofBytes state c.buffer c.position with bitmap } : Read _).runAt
      { c with position := c.position + 24 } := by
  have hsize : c.position + 40 ≤ c.buffer.size := h
  have hnode : c.position + 8 + 12 ≤ c.buffer.size := by omega
  have hcode : c.position + 8 + 12 + 4 ≤ c.buffer.size := by omega
  unfold read? u64 u32
  rw [runAt_bind ((Takes.unsigned 8).runAt c (by omega)),
    runAt_bind (ListNode.takes_read.runAt _ hnode), runAt_bind ((Takes.unsigned 4).runAt _ hcode)]
  simp only [Nat.add_assoc, Nat.reduceAdd]
  rfl

theorem runAt_read?_none (hcode : ExtentState.ofCode? (codeAt c.buffer c.position) = none) :
    read?.runAt c = .ok (none, { c with position := c.position + 24 }) := by
  rw [runAt_read?_eq h, hcode]
  rfl

theorem runAt_read?_some {state : ExtentState}
    (hcode : ExtentState.ofCode? (codeAt c.buffer c.position) = some state) :
    read?.runAt c = .ok (some (ofBytes state c.buffer c.position),
      { c with position := c.position + size }) := by
  have hsize : c.position + 24 + 16 ≤ c.buffer.size := h
  rw [runAt_read?_eq h, hcode]
  simp only
  rw [runAt_bind ((Takes.bytes 16).runAt _ hsize)]
  rfl

end Extent

namespace ExtentPage

/-- **The descriptors of an array** of `n` slots from an offset on: each slot in use has a state and
is decoded from its own bytes. A slot whose state has no meaning is free. -/
structure Lists (b : Buffer) (start n : Nat) (l : List Extent) : Prop where
  inUse : SlotsInUse n (fun i => ¬ (1 ≤ Extent.codeAt b (start + Extent.size * i) ∧
    Extent.codeAt b (start + Extent.size * i) ≤ 4)) l.length
  extent : ∀ i < l.length, ∃ state,
    ExtentState.ofCode? (Extent.codeAt b (start + Extent.size * i)) = some state ∧
      l[i]? = some (.ofBytes state b (start + Extent.size * i))

theorem Lists.nil {b : Buffer} {start n : Nat}
    (hfree : 0 < n → ExtentState.ofCode? (Extent.codeAt b start) = none) :
    Lists b start n [] where
  inUse := .zero fun hn => ExtentState.ofCode?_eq_none_iff.mp (hfree hn)
  extent := nofun

/-- A descriptor before others, which stand behind its bytes. -/
theorem Lists.cons {b : Buffer} {start n : Nat} {l : List Extent} {state : ExtentState}
    (hstate : ExtentState.ofCode? (Extent.codeAt b start) = some state)
    (h : Lists b (start + Extent.size) n l) :
    Lists b start (n + 1) (.ofBytes state b start :: l) := by
  have hshift (i : Nat) :
      start + Extent.size * (i + 1) = start + Extent.size + Extent.size * i := by
    rw [Nat.mul_succ]
    omega
  have hused : ¬ ¬ (1 ≤ Extent.codeAt b start ∧ Extent.codeAt b start ≤ 4) := fun hfree => by
    rw [ExtentState.ofCode?_eq_none_iff.mpr hfree] at hstate
    cases hstate
  constructor
  case inUse =>
    refine .succ hused ?_
    simp only [hshift]
    exact h.inUse
  case extent =>
    intro i hi
    cases i with
    | zero => exact ⟨state, hstate, rfl⟩
    | succ i =>
      rw [hshift, List.getElem?_cons_succ]
      exact h.extent i (Nat.lt_of_succ_lt_succ hi)

/-- Each descriptor that is listed is the one of its slot. -/
theorem Lists.eq_ofBytes {b : Buffer} {start n : Nat} {l : List Extent} (h : Lists b start n l)
    {i : Nat} {e : Extent} (he : l[i]? = some e) :
    ∃ state, e = .ofBytes state b (start + Extent.size * i) := by
  obtain ⟨hi, -⟩ := List.getElem?_eq_some_iff.mp he
  obtain ⟨state, -, hstate⟩ := h.extent i hi
  rw [he, Option.some.injEq] at hstate
  exact ⟨state, hstate⟩

/-- **The free pages of a descriptor** are those whose lower bit is set in the bytes of its slot. -/
theorem Lists.freePages_eq {b : Buffer} {start n : Nat} {l : List Extent} (h : Lists b start n l)
    {i : Nat} {e : Extent} (he : l[i]? = some e) :
    e.freePages = (List.range 64).countP fun page =>
      (b.byte (start + 40 * i + 24 + page / 4)).toNat.testBit (2 * (page % 4)) := by
  obtain ⟨state, rfl⟩ := h.eq_ofBytes he
  exact List.countP_congr fun page hpage => by
    rw [Extent.isFree_ofBytes state b _ (List.mem_range.mp hpage)]
    rfl

/-- **The ends of the list that a descriptor is in** are where its node names no page. -/
theorem Lists.isNull_iff {b : Buffer} {start n : Nat} {l : List Extent} (h : Lists b start n l)
    {i : Nat} {e : Extent} (he : l[i]? = some e) :
    (e.node.prev.isNull = true ↔ b.uint (start + 40 * i + 8) 4 = 0xFFFFFFFF) ∧
      (e.node.next.isNull = true ↔ b.uint (start + 40 * i + 14) 4 = 0xFFFFFFFF) := by
  obtain ⟨state, rfl⟩ := h.eq_ofBytes he
  exact ⟨decide_eq_true_iff, decide_eq_true_iff⟩

/-- **The descriptors that are read** are those of the slots, though reads follow one another. -/
theorem runAt_readExtents {n : Nat} {c : Cursor}
    (h : c.position + Extent.size * n ≤ c.buffer.size) :
    ∃ l d, (readExtents n).runAt c = .ok (l, d) ∧ Lists c.buffer c.position n l := by
  -- A descriptor that is read whole leaves the cursor at the next slot, so the slots that are left
  -- are an array of their own. One that ends the reads may leave it anywhere.
  induction n generalizing c with
  | zero => exact ⟨[], c, rfl, .nil nofun⟩
  | succ n ih =>
    rw [Nat.mul_succ] at h
    have hfirst : c.position + Extent.size ≤ c.buffer.size := by omega
    unfold readExtents
    cases hstate : ExtentState.ofCode? (Extent.codeAt c.buffer c.position) with
    | none =>
      rw [runAt_bind (Extent.runAt_read?_none hfirst hstate)]
      exact ⟨[], _, rfl, .nil fun _ => hstate⟩
    | some state =>
      rw [runAt_bind (Extent.runAt_read?_some hfirst hstate)]
      obtain ⟨l, d, hl, hlists⟩ := ih (c := { c with position := c.position + Extent.size })
        (by show c.position + Extent.size + _ ≤ c.buffer.size; omega)
      simp only
      rw [runAt_bind hl]
      exact ⟨_, d, rfl, .cons hstate hlists⟩

/-- The descriptors of a page are read, whatever its bytes. -/
theorem readFrom_readExtents (p : Page) : ∃ l,
    p.data.readFrom arrayOffset (readExtents maxExtents) = .ok l ∧
      Lists p.data 150 256 l := by
  have hsize : p.data.size = 16384 := p.size_data
  obtain ⟨l, d, hl, hlists⟩ := runAt_readExtents (n := maxExtents) (c := ⟨p.data, arrayOffset⟩)
    (by rw [hsize]; exact (by decide : 150 + 40 * 256 ≤ 16384))
  exact ⟨l, Buffer.readFrom_eq_ok.mpr ⟨by rw [hsize]; decide, d, hl⟩, hlists⟩

/-- **A page of descriptors is decoded**, whatever its bytes. -/
theorem ofPage_extents {p : Page} (hkind : p.kind = .extents) :
    ∃ x, ofPage p = .ok x ∧ x.header = none ∧ Lists p.data 150 256 x.extents := by
  obtain ⟨l, hl, hlists⟩ := readFrom_readExtents p
  refine ⟨⟨none, l⟩, ?_, rfl, hlists⟩
  unfold ofPage
  rw [hkind, hl]
  rfl

/-- **The first page is decoded**, whatever its bytes: the header of the space, and descriptors. -/
theorem ofPage_spaceHeader {p : Page} (hkind : p.kind = .spaceHeader) :
    ∃ x, ofPage p = .ok x ∧ x.header = some (.ofBytes p.data 38) ∧
      Lists p.data 150 256 x.extents := by
  obtain ⟨l, hl, hlists⟩ := readFrom_readExtents p
  have hheader : SpaceHeader.ofPage p = .ok (.ofBytes p.data 38) :=
    Buffer.readFrom_of_takes SpaceHeader.takes_read (by rw [p.size_data]; decide)
  refine ⟨⟨some (.ofBytes p.data 38), l⟩, ?_, rfl, hlists⟩
  unfold ofPage
  rw [hkind, hheader, hl]
  rfl

end ExtentPage

/-! ### Segments -/

namespace InodePage

/-- **The segment of a slot** of a page. -/
def slotAt (b : Buffer) (slot : Nat) : Inode := .ofBytes slot b (50 + 192 * slot)

/-- A slot whose segment has no number, or that bears no mark at all, is free. -/
theorem isUnused_slotAt {b : Buffer} {slot : Nat} : (slotAt b slot).isUnused = true ↔
    b.uint (50 + 192 * slot) 8 = 0 ∨ b.uint (50 + 192 * slot + 60) 4 = 0 := by
  unfold Inode.isUnused
  rw [Bool.or_eq_true, decide_eq_true_iff, decide_eq_true_iff]
  rfl

variable {p : Page} {slot n m : Nat}

/-- A slot is read from its own bytes. -/
theorem readFrom_slot (h : slot < slots) :
    p.data.readFrom (arrayOffset + slot * Inode.size) (Inode.read slot) =
      .ok (slotAt p.data slot) := by
  have hslot : arrayOffset + slot * Inode.size = 50 + 192 * slot := by
    rw [Nat.mul_comm]
    rfl
  have hroom : 50 + 192 * slot + Inode.size ≤ p.data.size := by
    have hsize : p.data.size = 16384 := p.size_data
    have hlast : slot < 85 := h
    rw [hsize]
    show 50 + 192 * slot + 192 ≤ 16384
    omega
  rw [hslot]
  exact Buffer.readFrom_of_takes (Inode.takes_read slot) hroom

/-- A slot in use that bears the marker comes before the others. -/
theorem inodesFrom_succ (h : slot < slots) (hused : ¬ (slotAt p.data slot).isUnused)
    (hmagic : (slotAt p.data slot).magic = Inode.marker) :
    inodesFrom p slot (n + 1) = (slotAt p.data slot :: ·) <$> inodesFrom p (slot + 1) n := by
  rw [inodesFrom, readFrom_slot h]
  simp only [bind, Except.bind, if_neg hused, if_pos hmagic]
  cases inodesFrom p (slot + 1) n <;> rfl

section InUse
variable (hinUse : SlotsInUse n (fun i => (slotAt p.data (slot + i)).isUnused) m)
  (hroom : slot + n ≤ slots)
include hinUse hroom

/-- **The segments of the slots in use**, if all of them bear the marker. -/
theorem inodesFrom_eq (hmarked : ∀ i < m, (slotAt p.data (slot + i)).magic = Inode.marker) :
    inodesFrom p slot n = .ok ((List.range' slot m).map (slotAt p.data)) := by
  induction n generalizing slot m with
  | zero =>
    rw [Nat.le_zero.mp hinUse.le]
    rfl
  | succ n ih =>
    cases m with
    | zero =>
      have hfree : (slotAt p.data slot).isUnused := hinUse.ends n.succ_pos
      rw [inodesFrom, readFrom_slot (by omega)]
      exact if_pos hfree
    | succ m =>
      have hused : ¬ (slotAt p.data slot).isUnused := hinUse.used 0 m.succ_pos
      have hmagic : (slotAt p.data slot).magic = Inode.marker := hmarked 0 m.succ_pos
      have hrest : inodesFrom p (slot + 1) n =
          .ok ((List.range' (slot + 1) m).map (slotAt p.data)) := by
        refine ih (.tail (fun i => (slotAt p.data i).isUnused) hinUse) (by omega) fun i hi => ?_
        rw [show slot + 1 + i = slot + (i + 1) by omega]
        exact hmarked (i + 1) (Nat.succ_lt_succ hi)
      rw [inodesFrom_succ (by omega) hused hmagic, hrest]
      rfl

/-- **The slot that fails a page** is the first in use that does not bear the marker. -/
theorem inodesFrom_eq_damaged {i : Nat} (hi : i < m)
    (hmarked : ∀ j < i, (slotAt p.data (slot + j)).magic = Inode.marker)
    (hbad : (slotAt p.data (slot + i)).magic ≠ Inode.marker) :
    inodesFrom p slot n = p.damaged (.inodeMagic (slot + i) (slotAt p.data (slot + i)).magic
      (slotAt p.data (slot + i)).segmentId) := by
  induction n generalizing slot m i with
  | zero => exact absurd hi (by have hle := hinUse.le; omega)
  | succ n ih =>
    obtain ⟨m, rfl⟩ := Nat.exists_eq_succ_of_ne_zero (Nat.ne_zero_of_lt hi)
    have hused : ¬ (slotAt p.data slot).isUnused := hinUse.used 0 m.succ_pos
    cases i with
    | zero =>
      have hbad : (slotAt p.data slot).magic ≠ Inode.marker := hbad
      rw [inodesFrom, readFrom_slot (by omega)]
      simp only [bind, Except.bind, if_neg hused, if_neg hbad]
      rfl
    | succ i =>
      have hmagic : (slotAt p.data slot).magic = Inode.marker := hmarked 0 i.succ_pos
      have hshift (j : Nat) : slot + 1 + j = slot + (j + 1) := by omega
      have hrest := ih (.tail (fun i => (slotAt p.data i).isUnused) hinUse) (by omega)
        (Nat.lt_of_succ_lt_succ hi) (fun j hj => hshift j ▸ hmarked (j + 1) (Nat.succ_lt_succ hj))
        (hshift i ▸ hbad)
      rw [hshift] at hrest
      rw [inodesFrom_succ (by omega) hused hmagic, hrest]
      rfl

end InUse

/-- A page of inodes begins with its place in a list of such pages. -/
theorem ofPage_eq (hkind : p.kind = .inode) : ofPage p =
    (inodesFrom p 0 slots).map fun inodes => ⟨.ofBytes p.data 38, inodes⟩ := by
  have hnode : p.data.readFrom headerSize ListNode.read = .ok (.ofBytes p.data 38) :=
    Buffer.readFrom_of_takes ListNode.takes_read (by rw [p.size_data]; decide)
  unfold ofPage
  rw [Page.expect, if_pos hkind, hnode]
  rfl

section Page
variable (hkind : p.kind = .inode)
  (hinUse : SlotsInUse slots (fun i => (slotAt p.data i).isUnused) m)
include hkind hinUse

/-- **The segments of a page**, if the slots in use bear the marker. -/
theorem ofPage_of_marked (hmarked : ∀ i < m, (slotAt p.data i).magic = Inode.marker) :
    ofPage p = .ok ⟨.ofBytes p.data 38, (List.range m).map (slotAt p.data)⟩ := by
  have hinodes : inodesFrom p 0 slots = .ok ((List.range' 0 m).map (slotAt p.data)) :=
    inodesFrom_eq (by simpa only [Nat.zero_add] using hinUse) le_rfl
      (by simpa only [Nat.zero_add] using hmarked)
  rw [ofPage_eq hkind, hinodes, List.range_eq_range']
  rfl

/-- A page fails where a slot in use does not bear the marker. -/
theorem ofPage_of_unmarked (hbad : ¬ ∀ i < m, (slotAt p.data i).magic = Inode.marker) :
    ∃ cause, ofPage p = p.damaged cause := by
  classical
  -- the first such slot, as those before it do not fail
  have hex : ∃ i, i < m ∧ (slotAt p.data i).magic ≠ Inode.marker := by
    push Not at hbad
    exact hbad
  obtain ⟨hi, hfirst⟩ := Nat.find_spec hex
  have hmarked (j : Nat) (hj : j < Nat.find hex) : (slotAt p.data j).magic = Inode.marker := by
    by_contra hne
    exact Nat.find_min hex hj ⟨hj.trans hi, hne⟩
  have hinodes : ∃ cause, inodesFrom p 0 slots = p.damaged cause :=
    ⟨_, inodesFrom_eq_damaged (by simpa only [Nat.zero_add] using hinUse) le_rfl hi
      (by simpa only [Nat.zero_add] using hmarked) (by simpa only [Nat.zero_add] using hfirst)⟩
  obtain ⟨cause, hinodes⟩ := hinodes
  rw [ofPage_eq hkind, hinodes]
  exact ⟨_, rfl⟩

/-- **When a page of inodes is decoded**: where no slot in use bears another mark. -/
theorem ofPage_eq_ok {x : InodePage} : ofPage p = .ok x ↔
    (∀ i < m, (slotAt p.data i).magic = Inode.marker) ∧
      x = ⟨.ofBytes p.data 38, (List.range m).map (slotAt p.data)⟩ := by
  by_cases hmarked : ∀ i < m, (slotAt p.data i).magic = Inode.marker
  · rw [ofPage_of_marked hkind hinUse hmarked, Except.ok.injEq, eq_comm]
    exact (and_iff_right hmarked).symm
  · obtain ⟨cause, hfails⟩ := ofPage_of_unmarked hkind hinUse hmarked
    rw [hfails]
    exact iff_of_false Page.damaged_ne_ok fun h => hmarked h.1

/-- **The extents of the segments of a page**, by the lengths of the three lists in each slot. -/
theorem extentCounts_of_ofPage {x : InodePage} (h : ofPage p = .ok x) :
    x.inodes.map Inode.extentCount = (List.range m).map fun i =>
      (p.data.uint (50 + 192 * i + 12) 4 + p.data.uint (50 + 192 * i + 28) 4 +
        p.data.uint (50 + 192 * i + 44) 4) % 0x100000000 := by
  obtain ⟨-, rfl⟩ := (ofPage_eq_ok hkind hinUse).mp h
  exact List.map_map ..

end Page

/-- A page of inodes is decoded, or it is to blame. -/
theorem blamesPage_ofPage (hkind : p.kind = .inode) : FailsOnly Error.BlamesPage (ofPage p) := by
  obtain ⟨m, hinUse⟩ := SlotsInUse.exists_slotsInUse slots fun i => (slotAt p.data i).isUnused
  by_cases hmarked : ∀ i < m, (slotAt p.data i).magic = Inode.marker
  · rw [ofPage_of_marked hkind hinUse hmarked]
    exact .ok _
  · obtain ⟨cause, hfails⟩ := ofPage_of_unmarked hkind hinUse hmarked
    rw [hfails]
    exact .error (.corrupt ..)

end InodePage

/-! ### Structural pages -/

namespace Page

/-- **A page is decoded**, or it is to blame. -/
theorem blamesPage_decode (p : Page) : FailsOnly Error.BlamesPage p.decode := by
  unfold decode
  split
  · next hkind =>
    obtain ⟨x, hx, -⟩ := ExtentPage.ofPage_spaceHeader hkind
    rw [hx]
    exact .ok _
  · next hkind =>
    obtain ⟨x, hx, -⟩ := ExtentPage.ofPage_extents hkind
    rw [hx]
    exact .ok _
  · next hkind => exact .map (InodePage.blamesPage_ofPage hkind) _
  · exact .map (IndexPage.blamesPage_ofPage p) _
  · exact .map (IndexPage.blamesPage_ofPage p) _
  · exact .map (BlobPart.blamesPage_ofPage (by decide)) _
  · exact .map (BlobPart.blamesPage_ofPage (by decide)) _
  · exact .ok _
  · exact .ok _

/-- **The decoded structural pages, slot by slot**, of any bytes that frame as a page. No page makes
its decoding leave the page. A page of descriptors is decoded always, and a page of inodes unless a
slot in use bears a mark other than the marker. -/
theorem decode_slots {number : Nat} {b : Buffer} {p : Page} (h : frame number b = .ok p) :
    (∀ e, p.decode = .error e → e.kind = .corrupt ∨ e.kind = .unsupported) ∧
    (p.kind = .spaceHeader → ∃ x, p.decode = .ok (.spaceHeader x) ∧
      x.header = some (.ofBytes b 38) ∧ ExtentPage.Lists b 150 256 x.extents) ∧
    (p.kind = .extents → ∃ x, p.decode = .ok (.extents x) ∧
      x.header = none ∧ ExtentPage.Lists b 150 256 x.extents) ∧
    (p.kind = .inode → ∃ m,
      SlotsInUse 85 (fun i => b.uint (50 + 192 * i) 8 = 0 ∨ b.uint (50 + 192 * i + 60) 4 = 0) m ∧
      (∀ x, p.decode = .ok x ↔ (∀ i < m, b.uint (50 + 192 * i + 60) 4 = 97937874) ∧
        x = .inode ⟨.ofBytes b 38, (List.range m).map (InodePage.slotAt b)⟩) ∧
      ((∃ e, p.decode = .error e ∧ e.kind = .corrupt) ↔
        ∃ i < m, b.uint (50 + 192 * i + 60) 4 ≠ 97937874)) := by
  obtain ⟨-, rfl, -⟩ := frame_inv h
  refine ⟨p.blamesPage_decode.holds, fun hkind => ?_, fun hkind => ?_, fun hkind => ?_⟩
  · obtain ⟨x, hx, hcontent⟩ := ExtentPage.ofPage_spaceHeader hkind
    refine ⟨x, ?_, hcontent⟩
    rw [decode, hkind, hx]
    rfl
  · obtain ⟨x, hx, hcontent⟩ := ExtentPage.ofPage_extents hkind
    refine ⟨x, ?_, hcontent⟩
    rw [decode, hkind, hx]
    rfl
  · obtain ⟨m, hinUse⟩ := SlotsInUse.exists_slotsInUse InodePage.slots fun i =>
      (InodePage.slotAt p.data i).isUnused
    have hdecode : p.decode = .inode <$> InodePage.ofPage p := by rw [decode, hkind]
    refine ⟨m, ?_, fun x => ?_, ?_⟩
    · simp only [InodePage.isUnused_slotAt] at hinUse
      exact hinUse
    · rw [hdecode, map_eq_ok]
      simp only [InodePage.ofPage_eq_ok hkind hinUse, and_assoc, exists_and_left, exists_eq_left]
      exact and_congr_right fun _ => eq_comm
    · by_cases hmarked : ∀ i < m, (InodePage.slotAt p.data i).magic = Inode.marker
      · rw [hdecode, InodePage.ofPage_of_marked hkind hinUse hmarked]
        exact iff_of_false nofun fun ⟨i, hi, hbad⟩ => hbad (hmarked i hi)
      · obtain ⟨cause, hfails⟩ := InodePage.ofPage_of_unmarked hkind hinUse hmarked
        rw [hdecode, hfails]
        refine iff_of_true ⟨_, rfl, rfl⟩ ?_
        push Not at hmarked
        exact hmarked

/-- A page of inodes with one segment, whose only page of its own is page 4. -/
def oneSegment : Buffer where
  size := pageSize
  byte i :=
    if i = 25 then 3
    else if i = 57 then 1
    else if 110 ≤ i ∧ i < 114 then [0x05, 0xD6, 0x69, 0xD2].getD (i - 110) 0
    else if i = 117 then 4
    else if 118 ≤ i ∧ i < 242 then 0xFF
    else 0

theorem decode_slots_oneSegment : (frame 2 oneSegment).map kind = .ok .inode ∧
    ∃ p, frame 2 oneSegment = .ok p ∧
      p.decode = .ok (.inode ⟨.ofBytes oneSegment 38, [InodePage.slotAt oneSegment 0]⟩) ∧
      (InodePage.slotAt oneSegment 0).fragments = [4] := by
  have hframe : (frame 2 oneSegment).map kind = .ok .inode := by decide +kernel
  obtain ⟨p, hp, hkind⟩ := map_eq_ok.mp hframe
  obtain ⟨m, hinUse, hdecode, -⟩ := (decode_slots hp).2.2.2 hkind
  have hone : m = 1 := hinUse.unique ⟨by decide, by decide +kernel, fun _ => by decide +kernel⟩
  subst hone
  exact ⟨hframe, p, hp, (hdecode _).mpr ⟨by decide +kernel, rfl⟩, by decide +kernel⟩

end Page

end Tablespace
