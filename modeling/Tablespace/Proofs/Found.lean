import Tablespace.Proofs.Lookup

/-! # What a lookup returns

A lookup on any image, damaged or not, takes a record for a match only if its key has been compared
with the key that is sought, on a page that has passed the checks of a leaf. The record is then
decoded a second time, as a whole. Both decodings start at the same origin, so they agree on header
and key.

* `Reader.descendFrom_eq_ok`: a descent that comes to its end has come to a leaf of the index.
* `Reader.locate_at_eq_ok`: a match is a record of the page that has been compared with the key.
* `Reader.get_eq_ok_some`: what a lookup that returns a record has found. -/

namespace Tablespace

namespace Reader
variable {r : Reader} {key : Key} {aim : Aim} {n : Node}

/-! ### The page of a match -/

theorem node_of_childNode {parent page : Nat} (h : r.childNode parent page = .ok n) :
    r.node page = .ok n ∧ n.index.level + 1 = parent := by
  unfold childNode at h
  rw [bind_eq_ok] at h
  obtain ⟨m, hm, h⟩ := h
  split at h
  · next hl =>
    cases h
    exact ⟨hm, hl⟩
  · cases h

/-- A descent goes from page to page of the index, one level down each time. -/
theorem descendFrom_eq_ok {target : Option Key} {level : Nat} {m : Node}
    (hn : ∃ page, r.node page = .ok n) (hl : n.index.level = level)
    (h : r.descendFrom target aim level n = .ok m) :
    (∃ page, r.node page = .ok m) ∧ m.index.level = 0 := by
  induction level generalizing n with
  | zero =>
    cases h
    exact ⟨hn, hl⟩
  | succ level ih =>
    rw [descendFrom, bind_eq_ok] at h
    obtain ⟨child, -, h⟩ := h
    rw [bind_eq_ok] at h
    obtain ⟨below, hbelow, h⟩ := h
    obtain ⟨hb, hlevel⟩ := node_of_childNode hbelow
    exact ih ⟨child, hb⟩ (by omega) h

/-- **A descent that comes to its end has come to a leaf of the index.** -/
theorem descend_eq_ok {target : Option Key} {m : Node} (h : r.descend target aim = .ok m) :
    ∃ page, r.node page = .ok m ∧ m.index.level = 0 := by
  unfold descend at h
  rw [bind_eq_ok] at h
  obtain ⟨n, hn, h⟩ := h
  obtain ⟨⟨page, hpage⟩, hl⟩ := descendFrom_eq_ok ⟨_, hn⟩ rfl h
  exact ⟨page, hpage, hl⟩

/-! ### The record of a match -/

/-- A record has been compared with the key, and the search ends at it. -/
def EndsAt (r : Reader) (n : Node) (key : Key) (aim : Aim) (rec : Record) : Prop :=
  (∃ origin, r.probe n origin = .ok rec) ∧ aim.isBelow? rec key = none

theorem bracket_inl {rec : Record} {lo hi : Nat}
    (h : r.bracket n key aim lo hi = .ok (.inl rec)) : r.EndsAt n key aim rec := by
  -- on the distance of the two slots
  induction hd : hi - lo using Nat.strongRecOn generalizing lo hi with
  | ind d ih =>
    rw [bracket] at h
    split at h
    · next hlt =>
      simp only [bind_eq_ok] at h
      obtain ⟨origin, -, a, ha, h⟩ := h
      split at h
      · next hend =>
        cases h
        exact ⟨⟨origin, ha⟩, hend⟩
      · exact ih _ (by omega) h rfl
      · exact ih _ (by omega) h rfl
    · cases h

theorem scan_at {rec prev : Record} {steps : Nat}
    (h : r.scan n key aim steps prev = .ok (.at rec)) : r.EndsAt n key aim rec := by
  induction steps generalizing prev with
  | zero => exact absurd h Page.damaged_ne_ok
  | succ steps ih =>
    rw [scan] at h
    split at h
    · exact absurd h Page.damaged_ne_ok
    · next origin _ =>
      rw [bind_eq_ok] at h
      obtain ⟨a, ha, h⟩ := h
      split at h
      · next hend =>
        cases h
        exact ⟨⟨origin, ha⟩, hend⟩
      · exact ih h
      · cases h

/-- **A match has been compared with the key**, whether a slot of the directory led to it or the
chain. -/
theorem locate_at_eq_ok {rec : Record} (h : r.locate n key aim = .ok (.at rec)) :
    r.EndsAt n key aim rec := by
  unfold locate at h
  split at h
  · cases h
  · rw [bind_eq_ok] at h
    obtain ⟨found, hfound, h⟩ := h
    cases found with
    | inl a =>
      cases h
      exact bracket_inl hfound
    | inr lo =>
      simp only [bind_eq_ok] at h
      obtain ⟨_, -, first, -, h⟩ := h
      exact scan_at h

end Reader

theorem Record.isUser_of_compareKey_eq {r : Record} {key : Key} (h : r.compareKey key = .eq) :
    r.isUser ∧ compareKeys r.key key = .eq := by
  have hinf : ¬ r.isInfimum := fun hi => by
    rw [compareKey_of_isInfimum hi] at h
    cases h
  have hsup : ¬ r.isSupremum := fun hs => by
    rw [compareKey_of_isSupremum hs] at h
    cases h
  have hu : r.isUser := isUser_iff.mpr ⟨hinf, hsup⟩
  rw [compareKey_of_isUser hu] at h
  exact ⟨hu, h⟩

namespace Codec
variable {c : Codec} {src : PageSource} {p : Page} {leaf : Bool} {depth : Depth}

theorem origin_of_read {origin : Nat} {r : Record} (e : c.read src p leaf depth origin = .ok r) :
    r.origin = origin ∧ r.page = p.number := by
  obtain ⟨key, child, h, -⟩ := keyPart_of_read e
  exact ⟨congrArg Record.origin h, congrArg Record.page h⟩

/-- A user record has the status of the level of its page. -/
theorem status_of_read {origin : Nat} {r : Record} (e : c.read src p leaf depth origin = .ok r)
    (hu : r.isUser) : r.status = .ofLevel leaf := by
  obtain ⟨header, -, ⟨hs, e⟩ | ⟨hs, e⟩⟩ := read_eq_ok.mp (read_key_of_read e)
  · -- a system record is no user record
    have hr : r.status = header.status := congrArg Record.status e.symm
    unfold Record.isUser at hu
    rw [hr] at hu
    rcases hs with hs | hs <;> simp [hs] at hu
  · obtain ⟨key, child, -, -, e⟩ := readUser_key_eq_ok e
    have hr : r.status = header.status := congrArg Record.status e
    rw [hr, hs]

/-- Two decodings of one record agree up to its key. -/
theorem keyPart_eq_of_read {origin : Nat} {a r : Record}
    (ha : c.read src p leaf .key origin = .ok a)
    (e : c.read src p leaf depth a.origin = .ok r) : r.keyPart = a := by
  have hkey := read_key_of_read e
  rw [(origin_of_read ha).1, ha] at hkey
  exact (Except.ok.inj hkey).symm

end Codec

/-! ### Lookups -/

namespace Reader
variable {r : Reader}

/-- What a lookup did that returns a record. -/
theorem exists_match_of_get {key : Key} {rec : Record} (h : r.get key = .ok (some rec)) :
    key.length = r.keyLength ∧ ∃ n a, r.descend (some key) .equal = .ok n ∧
      r.locate n key .equal = .ok (.at a) ∧ r.isVisible a ∧
      r.codec.read r.source n.page true .full a.origin = .ok rec := by
  unfold get at h
  split at h
  · cases h
  · next hlen =>
    rw [bind_eq_ok] at h
    obtain ⟨n, hdescend, h⟩ := h
    rw [bind_eq_ok] at h
    obtain ⟨place, hlocate, h⟩ := h
    cases place with
    | between prev next => cases h
    | «at» a =>
      simp only at h
      split at h
      · next hvisible =>
        cases hread : r.codec.read r.source n.page true .full a.origin with
        | error e =>
          rw [hread] at h
          cases h
        | ok full =>
          rw [hread] at h
          cases h
          exact ⟨not_not.mp hlen, n, a, hdescend, hlocate, hvisible, hread⟩
      · cases h

/-- **What a lookup has found**, whatever the image holds: a shown row whose key is equal to the
whole key that was sought, as it is decoded at its origin on a leaf of the clustered index. -/
theorem get_eq_ok_some {key : Key} {rec : Record} (h : r.get key = .ok (some rec)) :
    compareKeys rec.key key = .eq ∧ rec.key.length = key.length ∧ rec.status = .ordinary ∧
      (rec.isDeleted → r.options.includeDeleted) ∧
      ∃ p x, r.image.load rec.page = .ok p ∧ p.kind = .index ∧ IndexPage.ofPage p = .ok x ∧
        x.level = 0 ∧ x.header.indexId = r.indexId ∧
        r.codec.read r.source p true .full rec.origin = .ok rec := by
  obtain ⟨hlen, n, a, hdescend, hlocate, hvisible, hread⟩ := exists_match_of_get h
  obtain ⟨page, hnode, hlevel⟩ := descend_eq_ok hdescend
  obtain ⟨hload, hkind, hindex, hid⟩ := exists_load_of_node hnode
  obtain ⟨⟨origin, hprobe⟩, hend⟩ := locate_at_eq_ok hlocate
  have hleaf : n.index.isLeaf = true := decide_eq_true hlevel
  unfold probe at hprobe
  rw [hleaf] at hprobe
  -- the row has the header and the key of the match
  have hkey : rec.keyPart = a := Codec.keyPart_eq_of_read hprobe hread
  obtain ⟨huser, heq⟩ := Record.isUser_of_compareKey_eq (Aim.isBelow?_eq_none.mp hend).1
  rw [← hkey] at huser heq hvisible
  have hcount : rec.key.length = r.keyLength := Codec.length_key_of_read hread huser
  have hshown : rec.isDeleted → r.options.includeDeleted := by
    intro hdeleted
    have hdeleted' : rec.keyPart.isDeleted = true := hdeleted
    unfold isVisible at hvisible
    rw [hdeleted'] at hvisible
    simpa using hvisible
  obtain ⟨horigin, hpage⟩ := Codec.origin_of_read hread
  have hnumber : n.page.number = page := (node_eq_ok hnode).2.1
  rw [← hnumber, ← hpage] at hload
  rw [← horigin] at hread
  exact ⟨heq, hcount.trans hlen.symm, Codec.status_of_read hread huser, hshown, n.page, n.index,
    hload, hkind, hindex, hlevel, hid, hread⟩

/-- The lookup of the first row of the tree of two leaves. -/
theorem get_eq_ok_some_twoLeaves :
    TwoLeaves.reader.get [.int 1] = .ok (some (TwoLeaves.row 4 125 2 22 1)) ∧
      ∃ p x, TwoLeaves.reader.image.load 4 = .ok p ∧ p.kind = .index ∧
        IndexPage.ofPage p = .ok x ∧ x.level = 0 ∧ x.header.indexId = 7 ∧
        TwoLeaves.reader.codec.read TwoLeaves.reader.source p true .full 125 =
          .ok (TwoLeaves.row 4 125 2 22 1) := by
  have h : TwoLeaves.reader.get [.int 1] = .ok (some (TwoLeaves.row 4 125 2 22 1)) := by
    decide +kernel
  exact ⟨h, (get_eq_ok_some h).2.2.2.2⟩

end Reader
end Tablespace
