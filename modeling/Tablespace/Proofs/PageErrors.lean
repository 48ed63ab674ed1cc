import Tablespace.Proofs.FixedWidth
import Tablespace.Proofs.InRange
import Tablespace.Proofs.Failures

/-! # What framing and decoding a page fail by

A page is large enough for its header and its trailer, for the header of its body and for its
directory. No read of them leaves the page, whatever its bytes, so that a page that is not framed or
not decoded is damaged or in a format that is not read, and its error says so.

* `Error.BlamesPage`: the errors that blame a page.
* `FailsOnly.of_takes`: reads of fixed width in a page do not fail.
* `Image.blamesPage_load`, `IndexPage.blamesPage_ofPage`, `BlobPart.blamesPage_ofPage`: pages are
  loaded and decoded with no other errors than those. -/

namespace Tablespace

open Read

/-- **An error that blames a page**: the page is damaged, or in a format that is not read. -/
def Error.BlamesPage (e : Error) : Prop := e.kind = .corrupt ∨ e.kind = .unsupported

theorem Error.BlamesPage.corrupt (page : Nat) (cause : Damage) :
    BlamesPage (.corrupt page cause) := .inl rfl

theorem Error.BlamesPage.unsupported (cause : FormatUnsupported) :
    BlamesPage (.unsupported cause) := .inr rfl

/-- **Where there is room for a read of fixed width**, it does not fail. -/
theorem FailsOnly.of_takes {P : Error → Prop} {r : Read α} {n : Nat}
    (h : ∃ value, r.Takes n value) {b : Buffer} {i : Nat} (hi : i + n ≤ b.size) :
    FailsOnly P (b.readFrom i r) := by
  obtain ⟨value, h⟩ := h
  rw [Buffer.readFrom_of_takes h hi]
  exact .ok _

/-! ### Frames -/

theorem PageHeader.exists_takes_read : ∃ value, Takes read 38 value :=
  ⟨_, .bind (.unsigned 4) fun _ => .bind (.unsigned 4) fun _ => .bind (.unsigned 4) fun _ =>
    .bind (.unsigned 4) fun _ => .bind (.unsigned 8) fun _ => .bind (.map (.unsigned 2) _) fun _ =>
    .bind (.unsigned 8) fun _ => .bind (.unsigned 4) fun _ => .pure _⟩

theorem PageTrailer.exists_takes_read : ∃ value, Takes read 8 value :=
  ⟨_, .bind (.unsigned 4) fun _ => .bind (.unsigned 4) fun _ => .pure _⟩

theorem Page.blamesPage_frame (n : Nat) (b : Buffer) : FailsOnly Error.BlamesPage (frame n b) := by
  unfold frame
  split
  · next hsize =>
    have hends : 0 + 38 ≤ b.size ∧ bodyEnd + 8 ≤ b.size := by rw [hsize]; decide
    refine .bind (.of_takes PageHeader.exists_takes_read hends.1) fun header _ => ?_
    refine .bind (.of_takes PageTrailer.exists_takes_read hends.2) fun trailer _ => ?_
    exact .ite (fun _ => .ok _) fun _ => .error (.corrupt ..)
  · exact .error (.corrupt ..)

/-- **A page of an image is loaded**, or it is to blame. -/
theorem Image.blamesPage_load {i : Image} {page : Nat} (h : page < i.pageCount) :
    FailsOnly Error.BlamesPage (i.load page) := by
  unfold load raw
  rw [if_pos h]
  refine .bind (.ok _) fun data _ => ?_
  split
  · refine .bind (.ite (fun _ => .ok _) fun _ => .error (.corrupt ..)) fun _ _ => ?_
    exact Page.blamesPage_frame ..
  · exact Page.blamesPage_frame ..

/-! ### Bodies -/

theorem IndexHeader.exists_takes_read : ∃ value, Takes read 36 value :=
  ⟨_, .bind (.unsigned 2) fun _ => .bind (.unsigned 2) fun _ => .bind (.unsigned 2) fun _ =>
    .bind (.unsigned 2) fun _ => .bind (.unsigned 2) fun _ => .bind (.unsigned 2) fun _ =>
    .bind (.unsigned 2) fun _ => .bind (.unsigned 2) fun _ => .bind (.unsigned 2) fun _ =>
    .bind (.unsigned 8) fun _ => .bind (.unsigned 2) fun _ => .bind (.unsigned 8) fun _ => .pure _⟩

theorem SegmentAddress.exists_takes_read : ∃ value, Takes read 10 value :=
  ⟨_, .bind (.unsigned 4) fun _ => .bind (.unsigned 4) fun _ => .bind (.unsigned 2) fun _ =>
    .pure _⟩

namespace IndexPage
variable (p : Page)

theorem blamesPage_bytesAt {start n : Nat} (h : start + n ≤ pageSize) :
    FailsOnly Error.BlamesPage (bytesAt p.data start n) := by
  rw [bytesAt, if_pos (by rw [p.size_data]; exact h)]
  exact .ok _

/-- Every slot of a directory that fits the page is read. -/
theorem blamesPage_slotsFrom {directory i n : Nat} (h : 2 * (i + n) ≤ bodyEnd) :
    FailsOnly Error.BlamesPage (slotsFrom p directory i n) := by
  have hsize : p.data.size = bodyEnd + 8 := p.size_data
  induction n generalizing i with
  | zero => exact .ok _
  | succ n ih =>
    rw [slotsFrom]
    refine .bind (.of_takes ⟨_, .unsigned 2⟩ (by omega)) fun origin _ => ?_
    exact .ite (fun _ => .error (.corrupt ..)) fun _ => .bind (ih (by omega)) fun l _ => .ok _

theorem blamesPage_directoryOf (h : IndexHeader) :
    FailsOnly Error.BlamesPage (directoryOf p h) := by
  unfold directoryOf
  refine .ite (fun _ => .error (.corrupt ..)) fun hfits => ?_
  refine .ite (fun _ => .error (.corrupt ..)) fun htwo => ?_
  refine .bind (blamesPage_slotsFrom p (by omega)) fun l hl => ?_
  obtain ⟨first, last, hfirst, hlast⟩ := exists_ends p hl (by omega)
  simp only [hfirst, hlast]
  exact .ite (fun _ => .ok _) fun _ => .error (.corrupt ..)

theorem blamesPage_ofPage : FailsOnly Error.BlamesPage (ofPage p) := by
  have segments : ∃ value, Takes (do
      let leaf ← SegmentAddress.read
      let internal ← SegmentAddress.read
      return (leaf, internal)) 20 value := by
    obtain ⟨value, h⟩ := SegmentAddress.exists_takes_read
    exact ⟨_, .bind h fun _ => .bind h fun _ => .pure _⟩
  have hsize : p.data.size = 16384 := p.size_data
  unfold ofPage
  refine .ite (fun _ => .error (.corrupt ..)) fun _ => ?_
  refine .bind (.of_takes IndexHeader.exists_takes_read (by rw [hsize]; decide)) fun header _ => ?_
  refine .ite (fun _ => .error (.unsupported _)) fun _ => ?_
  refine .bind (.of_takes segments (by rw [hsize]; decide)) fun _ _ => ?_
  refine .bind (blamesPage_bytesAt p (by decide)) fun infimum _ => ?_
  refine .ite (fun _ => .error (.corrupt ..)) fun _ => ?_
  refine .bind (blamesPage_bytesAt p (by decide)) fun supremum _ => ?_
  refine .ite (fun _ => .error (.corrupt ..)) fun _ => ?_
  exact .bind (blamesPage_directoryOf ..) fun slots _ => .ok _

end IndexPage

theorem BlobPart.blamesPage_ofPage {p : Page} {offset : Nat} (h : offset + 8 ≤ pageSize) :
    FailsOnly Error.BlamesPage (ofPage p offset) := by
  have links : ∃ value, Takes (do
      let length ← Read.u32
      let next ← Read.u32
      return (length, next)) 8 value :=
    ⟨_, .bind (.unsigned 4) fun _ => .bind (.unsigned 4) fun _ => .pure _⟩
  unfold ofPage
  refine .ite (fun _ => ?_) fun _ => ?_
  · exact .ite (fun _ => .error (.unsupported _)) fun _ => .error (.corrupt ..)
  · refine .bind (.of_takes links (by rw [p.size_data]; exact h)) fun part _ => ?_
    exact .ite (fun _ => .error (.corrupt ..)) fun _ => .ok _

end Tablespace
