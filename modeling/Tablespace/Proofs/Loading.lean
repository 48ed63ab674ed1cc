import Mathlib.Data.List.Forall2
import Tablespace.Tree.Reader

/-! # Pages that load

What a loaded page says of itself: its number is the one it was loaded as, and lies in the image.
The directory of an index page begins with the infimum.

* `bind_eq_ok`, `mapM_eq_ok_iff`: what computations that succeed are made up of.
* `Page.frame_inv`, `Image.load_inv`, `IndexPage.ofPage_inv`: what pages are made of.
* `Image.load_eq_ok`: the number of a loaded page.
* `IndexPage.ofPage_eq_ok`: the number of an index page and its first slot.
* `Reader.exists_load_of_node`: the checks that a page of the clustered index has passed.
* `Reader.node_eq_ok`: its number and its first slot. -/

namespace Tablespace

/-! ### Computations that succeed -/

theorem bind_eq_ok {x : Except ε α} {f : α → Except ε β} {b : β} :
    (x >>= f) = .ok b ↔ ∃ a, x = .ok a ∧ f a = .ok b := by
  cases x <;> simp [bind, Except.bind]

theorem pure_eq_ok {a b : α} : (pure a : Except ε α) = .ok b ↔ a = b := by
  simp [pure, Except.pure]

theorem map_eq_ok {f : α → β} {x : Except ε α} {b : β} :
    f <$> x = .ok b ↔ ∃ a, x = .ok a ∧ f a = b := by
  cases x <;> simp [Functor.map, Except.map]

theorem mapError_eq_ok {f : ε → ε'} {x : Except ε α} {a : α} :
    x.mapError f = .ok a ↔ x = .ok a := by
  unfold Except.mapError
  cases x with
  | ok b => rw [Except.ok.injEq, Except.ok.injEq]
  | error e => exact iff_of_false nofun nofun

theorem mapM_eq_ok_iff {f : α → Except ε β} {l : List α} {l' : List β} :
    l.mapM f = .ok l' ↔ List.Forall₂ (fun a b => f a = .ok b) l l' := by
  induction l generalizing l' with
  | nil => rw [List.mapM_nil, pure_eq_ok, List.forall₂_nil_left_iff, eq_comm]
  | cons a l ih =>
    simp only [List.mapM_cons, bind_eq_ok, pure_eq_ok, List.forall₂_cons_left_iff, ← ih]
    constructor
    · rintro ⟨b, hb, bs, hbs, rfl⟩
      exact ⟨b, bs, hb, hbs, rfl⟩
    · rintro ⟨b, bs, hb, hbs, rfl⟩
      exact ⟨b, hb, bs, hbs, rfl⟩

theorem exists_of_forall₂_right {R : α → β → Prop} {l : List α} {l' : List β}
    (h : List.Forall₂ R l l') {b : β} (hb : b ∈ l') : ∃ a ∈ l, R a b := by
  induction h with
  | nil => cases hb
  | @cons a b' l l' hR h ih =>
    rcases List.mem_cons.mp hb with rfl | hb
    · exact ⟨a, List.mem_cons_self, hR⟩
    · obtain ⟨a', ha', hR'⟩ := ih hb
      exact ⟨a', List.mem_cons_of_mem _ ha', hR'⟩

instance decidableEqOk [DecidableEq α] : (x : Except ε α) → (a : α) → Decidable (x = .ok a)
  | .ok b, a => decidable_of_iff (b = a) (by simp)
  | .error _, _ => isFalse nofun

namespace Page

theorem damaged_ne_ok {p : Page} {d : Damage} {a : α} : p.damaged d ≠ .ok a := nofun

/-- What a page is made of. -/
theorem frame_inv {n : Nat} {b : Buffer} {p : Page} (h : frame n b = .ok p) :
    p.number = n ∧ p.data = b ∧ b.readFrom 0 PageHeader.read = .ok p.header := by
  unfold frame at h
  split at h
  · simp only [bind_eq_ok] at h
    obtain ⟨header, hheader, trailer, -, h⟩ := h
    split at h
    · cases h
      exact ⟨rfl, rfl, hheader⟩
    · cases h
  · cases h

end Page

namespace Image
variable {i : Image} {n : Nat}

theorem raw_eq_ok {data : Buffer} (h : i.raw n = .ok data) :
    n < i.pageCount ∧ data = i.data.slice (n * pageSize) pageSize := by
  unfold raw at h
  split at h
  · next hn =>
    cases h
    exact ⟨hn, rfl⟩
  · cases h

/-- A page that loads is framed from its bytes in the image. -/
theorem load_inv {p : Page} (h : i.load n = .ok p) :
    n < i.pageCount ∧ Page.frame n (i.data.slice (n * pageSize) pageSize) = .ok p := by
  unfold load at h
  rw [bind_eq_ok] at h
  obtain ⟨data, hd, h⟩ := h
  obtain ⟨hn, rfl⟩ := raw_eq_ok hd
  refine ⟨hn, ?_⟩
  split at h
  · rw [bind_eq_ok] at h
    obtain ⟨_, -, h⟩ := h
    exact h
  · exact h

/-- **The number of a loaded page.** -/
theorem load_eq_ok {p : Page} (h : i.load n = .ok p) : n < i.pageCount ∧ p.number = n := by
  obtain ⟨hn, hframe⟩ := load_inv h
  exact ⟨hn, (Page.frame_inv hframe).1⟩

end Image

namespace IndexPage

/-- What a directory is made of: the slots that are read, as many as there is room for, the first
the infimum and the last the supremum. -/
theorem directoryOf_inv {p : Page} {h : IndexHeader} {slots : Array Nat}
    (e : directoryOf p h = .ok slots) :
    2 ≤ h.slots ∧ 2 * h.slots ≤ bodyEnd ∧ h.heapTop ≤ bodyEnd - 2 * h.slots ∧
      (∃ l, slotsFrom p (bodyEnd - 2 * h.slots) 0 h.slots = .ok l ∧ slots = l.toArray) ∧
      slots[0]? = some infimum ∧ slots[h.slots - 1]? = some supremum := by
  unfold directoryOf at e
  split at e
  · exact absurd e Page.damaged_ne_ok
  · next hfits =>
    simp only at e
    split at e
    · exact absurd e Page.damaged_ne_ok
    · next hroom =>
      obtain ⟨l, hl, e⟩ := bind_eq_ok.mp e
      split at e
      · next first last hf hlast =>
        split at e
        · next hends =>
          cases e
          refine ⟨by omega, by omega, by omega, ⟨l, hl, rfl⟩, ?_, ?_⟩
          · rw [hf, hends.1]
          · rw [hlast, hends.2]
        · exact absurd e Page.damaged_ne_ok
      · cases e

/-- A directory begins with the infimum. -/
theorem directoryOf_eq_ok {p : Page} {h : IndexHeader} {slots : Array Nat}
    (e : directoryOf p h = .ok slots) : slots[0]? = some infimum := by
  obtain ⟨-, -, -, -, hfirst, -⟩ := directoryOf_inv e
  exact hfirst

/-- What an index page is made of. -/
theorem ofPage_inv {p : Page} {x : IndexPage} (e : ofPage p = .ok x) :
    IndexHeader.ofPage p = .ok x.header ∧ directoryOf p x.header = .ok x.slots ∧
      x.number = p.number ∧ x.prev = p.header.prev? ∧ x.next = p.header.next? := by
  unfold ofPage at e
  split at e
  · exact absurd e Page.damaged_ne_ok
  · rw [bind_eq_ok] at e
    obtain ⟨header, hheader, e⟩ := e
    split at e
    · cases e
    · simp only [bind_eq_ok] at e
      obtain ⟨⟨leaf, internal⟩, -, a, -, e⟩ := e
      split at e
      · exact absurd e Page.damaged_ne_ok
      · rw [bind_eq_ok] at e
        obtain ⟨b, -, e⟩ := e
        split at e
        · exact absurd e Page.damaged_ne_ok
        · rw [bind_eq_ok] at e
          obtain ⟨slots, hslots, e⟩ := e
          cases e
          exact ⟨hheader, hslots, rfl, rfl, rfl⟩

/-- **The number of an index page, and its first slot.** -/
theorem ofPage_eq_ok {p : Page} {x : IndexPage} (h : ofPage p = .ok x) :
    x.number = p.number ∧ x.slots[0]? = some infimum := by
  obtain ⟨-, hslots, hnumber, -⟩ := ofPage_inv h
  exact ⟨hnumber, directoryOf_eq_ok hslots⟩

end IndexPage

/-- **The checks that a page of the clustered index has passed.** -/
theorem Reader.exists_load_of_node {r : Reader} {page : Nat} {n : Node}
    (h : r.node page = .ok n) :
    r.image.load page = .ok n.page ∧ n.page.kind = .index ∧
      IndexPage.ofPage n.page = .ok n.index ∧ n.index.header.indexId = r.indexId := by
  unfold node at h
  simp only [bind_eq_ok] at h
  obtain ⟨p, hload, _, hkind, x, hx, h⟩ := h
  have hindex : p.kind = .index := by
    unfold Page.expect at hkind
    split at hkind
    · assumption
    · exact absurd hkind Page.damaged_ne_ok
  split at h
  · next hid =>
    cases h
    exact ⟨hload, hindex, hx, hid⟩
  · cases h

/-- **A page of the clustered index.** -/
theorem Reader.node_eq_ok {r : Reader} {page : Nat} {n : Node} (h : r.node page = .ok n) :
    page < r.pageCount ∧ n.page.number = page ∧ n.index.number = page ∧
      n.index.slots[0]? = some IndexPage.infimum := by
  obtain ⟨hload, -, hindex, -⟩ := exists_load_of_node h
  obtain ⟨hpage, hnumber⟩ := Image.load_eq_ok hload
  obtain ⟨hindexNumber, hfirst⟩ := IndexPage.ofPage_eq_ok hindex
  exact ⟨hpage, hnumber, hindexNumber.trans hnumber, hfirst⟩

theorem Reader.childNode_eq_ok {r : Reader} {page level : Nat} {n : Node}
    (hn : r.node page = .ok n) (hl : n.index.level = level) :
    r.childNode (level + 1) page = .ok n := by
  unfold childNode
  rw [bind_eq_ok]
  exact ⟨n, hn, if_pos (by rw [hl])⟩

end Tablespace
