import Tablespace.Proofs.Reads

/-! # The directory of an index page

What is accepted as an index page has a directory that later readers may rely on: as many slots as
its header says, at least two, each the number that stands at its place, each within the heap, the
first the infimum and the last the supremum. The heap ends below the directory, so that the bytes in
use are those of the page at most.

* `IndexHeader.ofBytes`, `PageHeader.kindOf`: what headers say, in terms of the bytes of the page.
* `IndexPage.Sound`: a sound directory. `IndexPage.sound_of_ofPage`: that of what is accepted.
* `IndexPage.Sound.usedBytes_le`: the bytes in use fit the page. -/

namespace Tablespace

/-! ### Headers -/

/-- The kind that the header of a page has, in terms of its bytes. -/
def PageHeader.kindOf (b : Buffer) : PageKind := .ofCode (b.uint 24 2)

theorem PageHeader.kind_of_read {b : Buffer} {h : PageHeader}
    (e : b.readFrom 0 PageHeader.read = .ok h) : h.kind = kindOf b := by
  obtain ⟨-, c, e⟩ := Buffer.readFrom_eq_ok.mp e
  unfold PageHeader.read at e
  iterate 5 replace e := Read.runAt_of_unsigned_bind (by decide) e
  obtain ⟨kind, d, hkind, e⟩ := Read.runAt_bind_eq_ok.mp e
  obtain ⟨code, hcode, rfl⟩ := Read.runAt_map_eq_ok.mp hkind
  obtain ⟨-, rfl, rfl⟩ := (Read.runAt_unsigned_eq_ok (by decide)).mp hcode
  iterate 2 replace e := Read.runAt_of_unsigned_bind (by decide) e
  obtain ⟨rfl, -⟩ := Read.runAt_pure_eq_ok.mp e
  rfl

/-- **The header of an index page**, in terms of the bytes of the page. -/
def IndexHeader.ofBytes (b : Buffer) : IndexHeader where
  slots := b.uint 38 2
  heapTop := b.uint 40 2
  heapField := b.uint 42 2
  free := b.uint 44 2
  garbage := b.uint 46 2
  lastInsert := b.uint 48 2
  direction := b.uint 50 2
  directionRun := b.uint 52 2
  records := b.uint 54 2
  maxTransaction := b.uint 56 8
  level := b.uint 64 2
  indexId := b.uint 66 8

theorem IndexHeader.eq_of_ofPage {p : Page} {h : IndexHeader} (e : ofPage p = .ok h) :
    h = ofBytes p.data := by
  obtain ⟨-, c, e⟩ := Buffer.readFrom_eq_ok.mp e
  unfold IndexHeader.read at e
  iterate 12 replace e := Read.runAt_of_unsigned_bind (by decide) e
  obtain ⟨rfl, -⟩ := Read.runAt_pure_eq_ok.mp e
  rfl

/-- **The name of a direction** tells which it is, unless it has no name of its own. -/
theorem IndexHeader.directionName_eq_iff {h h' : IndexHeader} :
    h.directionName = h'.directionName ↔ h.direction = h'.direction ∨
      ¬ (1 ≤ h.direction ∧ h.direction ≤ 5) ∧ ¬ (1 ≤ h'.direction ∧ h'.direction ≤ 5) := by
  unfold directionName
  split <;> split <;> grind

/-! ### Slots -/

namespace IndexPage
variable {p : Page} {x : IndexPage}

/-- **A sound directory.** -/
structure Sound (p : Page) (x : IndexPage) : Prop where
  header : x.header = .ofBytes p.data
  two_le : 2 ≤ x.header.slots
  fits : 2 * x.header.slots ≤ bodyEnd
  slots : x.slots =
    ((List.range x.header.slots).map fun i => p.data.uint (bodyEnd - 2 * (i + 1)) 2).toArray
  first : x.slots[0]? = some infimum
  last : x.slots[x.header.slots - 1]? = some supremum
  within : ∀ origin ∈ x.slots, infimum ≤ origin ∧ origin < bodyEnd - 2 * x.header.slots
  heapTop : x.header.heapTop ≤ bodyEnd - 2 * x.header.slots

theorem Sound.size_slots (h : Sound p x) : x.slots.size = x.header.slots := by
  rw [h.slots, List.size_toArray, List.length_map, List.length_range]

/-- **The bytes in use fit the page.** -/
theorem Sound.usedBytes_le (h : Sound p x) : x.usedBytes ≤ pageSize := by
  have hfits := h.fits
  have hheap := h.heapTop
  have hend : bodyEnd + 8 = pageSize := by decide
  unfold usedBytes
  rw [h.size_slots]
  omega

theorem slot_eq_ok {position origin : Nat} (e : p.data.readFrom position Read.u16 = .ok origin) :
    origin = p.data.uint position 2 := by
  obtain ⟨-, c, hc⟩ := Buffer.readFrom_eq_ok.mp e
  exact ((Read.runAt_unsigned_eq_ok (by decide)).mp hc).2.1.symm

/-- The slots that are read, from a slot on, stand one below the other. -/
theorem slotsFrom_eq_ok {directory i n : Nat} {l : List Nat}
    (e : slotsFrom p directory i n = .ok l) :
    l = (List.range' i n).map (fun i => p.data.uint (bodyEnd - 2 * (i + 1)) 2) ∧
      ∀ origin ∈ l, infimum ≤ origin ∧ origin < directory := by
  induction n generalizing i l with
  | zero =>
    cases e
    exact ⟨rfl, nofun⟩
  | succ n ih =>
    rw [slotsFrom, bind_eq_ok] at e
    obtain ⟨origin, ho, e⟩ := e
    split at e
    · exact absurd e Page.damaged_ne_ok
    · next hwithin =>
      obtain ⟨l', hl, e⟩ := bind_eq_ok.mp e
      cases e
      obtain ⟨hl', hbounds⟩ := ih hl
      constructor
      · rw [List.range'_succ, List.map_cons, ← slot_eq_ok ho, hl']
      · intro a ha
        rcases List.mem_cons.mp ha with rfl | ha
        · omega
        · exact hbounds a ha

/-- **What is accepted as an index page has a sound directory.** -/
theorem sound_of_ofPage (e : ofPage p = .ok x) : Sound p x := by
  obtain ⟨hheader, hdirectory, -⟩ := ofPage_inv e
  obtain ⟨htwo, hfits, hheap, ⟨l, hl, hslots⟩, hfirst, hlast⟩ := directoryOf_inv hdirectory
  obtain ⟨hplaces, hwithin⟩ := slotsFrom_eq_ok hl
  refine ⟨IndexHeader.eq_of_ofPage hheader, htwo, hfits, ?_, hfirst, hlast, ?_, hheap⟩
  · rw [hslots, hplaces, List.range_eq_range']
  · intro origin horigin
    rw [hslots] at horigin
    exact hwithin origin (List.mem_toArray.mp horigin)

end IndexPage
end Tablespace
