import Mathlib.Algebra.Order.BigOperators.Group.List
import Mathlib.Algebra.Order.Ring.Nat
import Tablespace.Proofs.Directory
import Tablespace.Proofs.Tree
import Tablespace.Tree.Fill

/-! # What a fill adds up

The fill of the clustered index adds up the fills of its pages: those whose header has the kind of
an index page, and whose index header names the index of the reader. What it adds up does not depend
on the order of the pages, and it is no more than there is room for. The pages are counted in 32
bits, so that an image of 4294967296 pages has none to add up.

* `FillStats.Totals`: what the fill of some pages adds up. `FillStats.Totals.add` is a step of it,
  and `FillStats.totals_ofList` the whole of it.
* `Reader.Owns`, `Reader.ownPages`: the pages of the clustered index, by the bytes of the image.
* `Reader.fill_sound`: what is accepted as an index page, and the fill of the clustered index.
* `TwoLeaves.fillStats_wide`: a clustered index whose pages are not counted. -/

namespace Tablespace

/-! ### Adding up -/

namespace FillStats
variable {s s' : FillStats} {l l' : List PageFill}

/-- **What the fill of some pages adds up.** -/
structure Totals (s : FillStats) (l : List PageFill) : Prop where
  pages : s.pages = l.length
  leafPages : s.leafPages = l.countP (·.level = 0)
  internalPages : s.internalPages = l.countP (·.level ≠ 0)
  records : s.records = (l.map PageFill.records).sum
  usedBytes : s.usedBytes = (l.map PageFill.usedBytes).sum
  ratio : s.ratio = if l = [] then 0 else fillRatio s.usedBytes s.pages

theorem totals_empty : Totals empty [] := ⟨rfl, rfl, rfl, rfl, rfl, rfl⟩

/-- **One more page**, after those that have been added up. -/
theorem Totals.add (h : Totals s l) (f : PageFill) : Totals (s.add f) (l ++ [f]) := by
  have hcount : ∀ p : PageFill → Bool,
      (l ++ [f]).countP p = l.countP p + if p f then 1 else 0 := by
    intro p
    rw [List.countP_append, List.countP_singleton]
  have hsum : ∀ g : PageFill → Nat, ((l ++ [f]).map g).sum = (l.map g).sum + g f := by
    intro g
    rw [List.map_append, List.sum_append, List.map_singleton, List.sum_singleton]
  constructor
  case pages =>
    rw [List.length_append, ← h.pages]
    rfl
  case leafPages =>
    rw [hcount, ← h.leafPages]
    simp [FillStats.add]
  case internalPages =>
    rw [hcount, ← h.internalPages]
    simp [FillStats.add]
  case records =>
    rw [hsum, ← h.records]
    rfl
  case usedBytes =>
    rw [hsum, ← h.usedBytes]
    rfl
  case ratio =>
    have hsome : l ++ [f] ≠ [] := by simp
    rw [if_neg hsome]
    rfl

/-- **More pages**, one after the other. -/
theorem Totals.foldl (h : Totals s l) (l' : List PageFill) :
    Totals (l'.foldl FillStats.add s) (l ++ l') := by
  induction l' generalizing s l with
  | nil => rwa [List.append_nil]
  | cons f l' ih =>
    rw [List.append_cons]
    exact ih (h.add f)

/-- **The fill of some pages adds up their fills.** -/
theorem totals_ofList (l : List PageFill) : Totals (ofList l) l := totals_empty.foldl l

/-- Nothing but what is added up is in the fill of some pages. -/
theorem Totals.unique (h : Totals s l) (h' : Totals s' l) : s = s' := by
  have hpages : s.pages = s'.pages := by rw [h.pages, h'.pages]
  have hleaf : s.leafPages = s'.leafPages := by rw [h.leafPages, h'.leafPages]
  have hinternal : s.internalPages = s'.internalPages := by
    rw [h.internalPages, h'.internalPages]
  have hrecords : s.records = s'.records := by rw [h.records, h'.records]
  have hused : s.usedBytes = s'.usedBytes := by rw [h.usedBytes, h'.usedBytes]
  -- the share is told by the sums
  have hratio : s.ratio = s'.ratio := by rw [h.ratio, h'.ratio, hpages, hused]
  obtain ⟨⟩ := s
  obtain ⟨⟩ := s'
  subst hpages hused hratio hleaf hinternal hrecords
  rfl

/-- Pages in another order add up to the same. -/
theorem Totals.perm (h : Totals s l) (hl : l.Perm l') : Totals s l' := by
  have hnil : l = [] ↔ l' = [] := by
    rw [← List.length_eq_zero_iff, ← List.length_eq_zero_iff, hl.length_eq]
  constructor
  case pages => rw [h.pages, hl.length_eq]
  case leafPages => rw [h.leafPages, hl.countP_eq]
  case internalPages => rw [h.internalPages, hl.countP_eq]
  case records => rw [h.records, (hl.map _).sum_eq]
  case usedBytes => rw [h.usedBytes, (hl.map _).sum_eq]
  case ratio => rw [h.ratio, if_congr hnil rfl rfl]

/-- **The order of the pages does not matter** to their fill. -/
theorem ofList_perm (hl : l.Perm l') : ofList l = ofList l' :=
  ((totals_ofList l).perm hl).unique (totals_ofList l')

theorem Totals.pages_eq (h : Totals s l) : s.pages = s.leafPages + s.internalPages := by
  rw [h.pages, h.leafPages, h.internalPages, l.length_eq_countP_add_countP (·.level = 0)]
  simp

theorem Totals.usedBytes_le {bound : Nat} (h : Totals s l) (hl : ∀ f ∈ l, f.usedBytes ≤ bound) :
    s.usedBytes ≤ bound * s.pages := by
  have hsum : (l.map PageFill.usedBytes).sum ≤ (l.map PageFill.usedBytes).length • bound :=
    List.sum_le_card_nsmul _ _ (by simpa using hl)
  rw [List.length_map, Nat.nsmul_eq_mul] at hsum
  rw [h.usedBytes, h.pages, Nat.mul_comm]
  exact hsum

end FillStats

/-! ### The pages of the clustered index -/

namespace Reader
variable {r : Reader} {n : Nat}

/-- **A page of the clustered index**, by the bytes of the image. -/
def Owns (r : Reader) (n : Nat) : Prop :=
  PageKind.ofCode (r.image.data.uint (n * pageSize + 24) 2) = .index ∧
    r.image.data.uint (n * pageSize + 66) 8 = r.indexId

instance (r : Reader) (n : Nat) : Decidable (r.Owns n) := inferInstanceAs (Decidable (_ ∧ _))

/-- **The pages of the clustered index** that are counted, in ascending order. A count of pages has
32 bits. -/
def ownPages (r : Reader) : List Nat := (List.range (r.pageCount % 0x100000000)).filter r.Owns

theorem mem_ownPages : n ∈ r.ownPages ↔ n < r.pageCount % 0x100000000 ∧ r.Owns n := by
  unfold ownPages
  rw [List.mem_filter, List.mem_range, decide_eq_true_iff]

/-- The header that is read of a page has the kind that the image says. -/
theorem kind_of_loadHeader {header : PageHeader} (h : r.image.loadHeader n = .ok header) :
    header.kind = .ofCode (r.image.data.uint (n * pageSize + 24) 2) := by
  obtain ⟨data, hdata, hread⟩ := bind_eq_ok.mp h
  obtain ⟨-, rfl⟩ := Image.raw_eq_ok hdata
  rw [PageHeader.kind_of_read hread, PageHeader.kindOf, Buffer.uint_slice]

/-- An index page has the index that the image says. -/
theorem indexId_of_load {p : Page} {x : IndexPage} (hp : r.image.load n = .ok p)
    (hx : IndexPage.ofPage p = .ok x) :
    x.header.indexId = r.image.data.uint (n * pageSize + 66) 8 := by
  obtain ⟨-, hframe⟩ := Image.load_inv hp
  obtain ⟨-, hdata, -⟩ := Page.frame_inv hframe
  rw [(IndexPage.sound_of_ofPage hx).header, hdata]
  exact Buffer.uint_slice ..

theorem pageFill_inv {f : PageFill} (h : r.pageFill n = .ok f) :
    ∃ p x, r.image.load n = .ok p ∧ IndexPage.ofPage p = .ok x ∧ f = x.fill := by
  unfold pageFill at h
  simp only [bind_eq_ok] at h
  obtain ⟨p, hp, x, hx, h⟩ := h
  exact ⟨p, x, hp, hx, (pure_eq_ok.mp h).symm⟩

/-- **The fill of a page fits the page.** -/
theorem usedBytes_le_of_pageFill {f : PageFill} (h : r.pageFill n = .ok f) :
    f.usedBytes ≤ pageSize := by
  obtain ⟨p, x, -, hx, rfl⟩ := pageFill_inv h
  exact (IndexPage.sound_of_ofPage hx).usedBytes_le

/-- **Which pages count**: a page of the clustered index with its fill, and no other page. -/
theorem fillOf_inv {o : Option PageFill} (h : r.fillOf n = .ok o) :
    (r.Owns n ∧ ∃ f, r.pageFill n = .ok f ∧ o = some f) ∨ (¬ r.Owns n ∧ o = none) := by
  unfold fillOf at h
  obtain ⟨header, hheader, h⟩ := bind_eq_ok.mp h
  have hkind := kind_of_loadHeader hheader
  split at h
  · next hindex =>
    simp only [bind_eq_ok] at h
    obtain ⟨p, hp, x, hx, h⟩ := h
    have hid := indexId_of_load hp hx
    have ho := pure_eq_ok.mp h
    split at ho
    · next hown =>
      have hfill : r.pageFill n = .ok x.fill := by
        unfold pageFill
        simp only [bind_eq_ok]
        exact ⟨p, hp, x, hx, rfl⟩
      exact .inl ⟨⟨hkind.symm.trans hindex, hid.symm.trans hown⟩, x.fill, hfill, ho.symm⟩
    · next hforeign =>
      exact .inr ⟨fun hown => hforeign (hid.trans hown.2), ho.symm⟩
  · next hother =>
    exact .inr ⟨fun hown => hother (hkind.trans hown.1), (pure_eq_ok.mp h).symm⟩

/-- The fills that are found among some pages are those of the pages of the clustered index. -/
theorem forall₂_fills {pages : List Nat} {found : List (Option PageFill)}
    (h : List.Forall₂ (fun n o => r.fillOf n = .ok o) pages found) :
    List.Forall₂ (fun n f => r.pageFill n = .ok f) (pages.filter r.Owns) (found.filterMap id) := by
  induction h with
  | nil => exact .nil
  | @cons n o pages found hn _ ih =>
    rcases fillOf_inv hn with ⟨hown, f, hf, rfl⟩ | ⟨hforeign, rfl⟩
    · rw [List.filter_cons_of_pos (by simpa using hown)]
      exact .cons hf ih
    · rw [List.filter_cons_of_neg (by simpa using hforeign)]
      exact ih

/-- **The fill of the clustered index** adds up the fills of its pages. -/
theorem fillStats_inv {s : FillStats} (h : r.fillStats = .ok s) :
    ∃ fills, r.ownPages.mapM r.pageFill = .ok fills ∧ s = .ofList fills := by
  obtain ⟨found, hfound, h⟩ := bind_eq_ok.mp h
  exact ⟨_, mapM_eq_ok_iff.mpr (forall₂_fills (mapM_eq_ok_iff.mp hfound)), (pure_eq_ok.mp h).symm⟩

/-- **Directories are sound, and fills are bounded.** What is accepted as an index page has a sound
directory, and no more bytes in use than a page has. The fill of the clustered index adds up the
fills of its pages and of no other page, as far as 32 bits count the pages of the image: all of them
if there are fewer than 4294967296. The order in which the fills of some pages are added up does not
matter. -/
theorem fill_sound (r : Reader) :
    (∀ (p : Page) (x : IndexPage), IndexPage.ofPage p = .ok x →
      IndexPage.Sound p x ∧ x.slots.size = x.header.slots ∧ x.usedBytes ≤ pageSize) ∧
    (∀ s, r.fillStats = .ok s → ∃ fills, r.ownPages.mapM r.pageFill = .ok fills ∧
      s.Totals fills ∧ s.pages = s.leafPages + s.internalPages ∧
      s.usedBytes ≤ pageSize * s.pages) ∧
    (∀ n, n ∈ r.ownPages ↔ n < r.pageCount % 0x100000000 ∧ r.Owns n) ∧
    (r.pageCount < 0x100000000 → ∀ n, n ∈ r.ownPages ↔ n < r.pageCount ∧ r.Owns n) ∧
    ∀ l l' : List PageFill, l.Perm l' → FillStats.ofList l = .ofList l' := by
  refine ⟨fun p x hx => ?_, fun s hs => ?_, fun n => mem_ownPages, fun h n => ?_,
    fun l l' => FillStats.ofList_perm⟩
  · have hsound := IndexPage.sound_of_ofPage hx
    exact ⟨hsound, hsound.size_slots, hsound.usedBytes_le⟩
  · obtain ⟨fills, hfills, rfl⟩ := fillStats_inv hs
    have htotals := FillStats.totals_ofList fills
    have hfit : ∀ f ∈ fills, f.usedBytes ≤ pageSize := by
      intro f hf
      obtain ⟨n, -, hn⟩ := exists_of_forall₂_right (mapM_eq_ok_iff.mp hfills) hf
      exact usedBytes_le_of_pageFill hn
    exact ⟨fills, hfills, htotals, htotals.pages_eq, htotals.usedBytes_le hfit⟩
  · rw [mem_ownPages, Nat.mod_eq_of_lt h]

end Reader

namespace TwoLeaves

/-- The fill of the tree. -/
def fill : FillStats where
  pages := 3
  leafPages := 2
  internalPages := 1
  records := 6
  usedBytes := 510
  ratio := fillRatio 510 3

theorem fillStats_eq : reader.fillStats = .ok fill := by decide +kernel

theorem ownPages_eq : reader.ownPages = [3, 4, 5] := by decide +kernel

/-- The fill of the tree adds up those of its three pages, whose directories are sound. -/
theorem fill_sound_twoLeaves :
    IndexPage.Sound left.node.page left.node.index ∧
      (∃ fills, [3, 4, 5].mapM reader.pageFill = .ok fills ∧ fill.Totals fills ∧
        FillStats.ofList fills.reverse = .ofList fills) ∧
      (5 < reader.pageCount ∧ reader.Owns 5) ∧ ¬ reader.Owns 2 := by
  obtain ⟨hdirectory, htotals, -, hown, horder⟩ := Reader.fill_sound reader
  obtain ⟨-, -, hindex, -⟩ := Reader.exists_load_of_node (node_left reader.codec)
  obtain ⟨fills, hfills, hfill, -⟩ := htotals fill fillStats_eq
  have hmem : ∀ n, n ∈ [3, 4, 5] ↔ n < reader.pageCount ∧ reader.Owns n := by
    rw [← ownPages_eq]
    exact hown (by decide)
  rw [ownPages_eq] at hfills
  refine ⟨(hdirectory _ _ hindex).1, ⟨fills, hfills, hfill, horder _ _ fills.reverse_perm⟩,
    (hmem 5).mp (by decide), fun h => ?_⟩
  exact absurd ((hmem 2).mpr ⟨by decide, h⟩) (by decide)

/-- The image of the tree, with empty pages behind it up to the last number of 32 bits. -/
def wideImage : Image :=
  { image with data := { image.data with size := 0x100000000 * pageSize } }

/-- The reader of the tree in this image. -/
def wide : Reader := { reader with image := wideImage }

/-- **A clustered index whose pages are not counted**: the tree is found in the image, and its fill
is that of no pages. -/
theorem fillStats_wide :
    Reader.of wideImage reader.table .default = .ok wide ∧ wide.fillStats = .ok .empty ∧
      ∀ n ∈ [3, 4, 5], n < wide.pageCount ∧ wide.Owns n ∧ n ∉ wide.ownPages := by
  have hfind : Root.find wideImage .default = .ok (3, root.node.index) := by decide +kernel
  refine ⟨?_, by decide +kernel, by decide +kernel⟩
  unfold Reader.of
  rw [hfind]
  rfl

end TwoLeaves
end Tablespace
