import Tablespace.Proofs.Found

/-! # The search on a page

On a page whose chain is in order, halving the directory saves decoding and changes nothing else:
the search comes to the place that a scan of the whole chain comes to. That place can be told from
the keys of the chain alone.

* `Listing.Falls`: where a key falls in a chain. `Listing.Falls.unique`: it falls in one place only.
* `Reader.ListsKeys.locate_eq_scan`: the search on a page and a scan of its chain end there. -/

namespace Tablespace

/-- **Where a key falls in a chain**: at the only record that is equal to it, if the search is to
end at it, and otherwise between the last record below it and the first that is not. A search
decodes records up to their keys. -/
inductive Listing.Falls (x : Listing) (key : Key) : Aim → Place → Prop
  | at {a : Record} (mem : a ∈ x.records) (equal : compareKeys a.key key = .eq)
      (only : ∀ b ∈ x.records, compareKeys b.key key = .eq → b = a) :
      Falls x key .equal (.at a.keyPart)
  | between {aim : Aim} {l m : List Record} {prev next : Record}
      (split : x.chain = l ++ prev :: next :: m)
      (below : ∀ b ∈ l ++ [prev], b.compareKey key = .lt)
      (notBelow : ∀ b ∈ next :: m, b.compareKey key ≠ .lt)
      (unequal : aim = .equal → ∀ b ∈ x.records, compareKeys b.key key ≠ .eq) :
      Falls x key aim (.between prev.keyPart next.keyPart)

namespace Listing.Falls
variable {x : Listing} {key : Key} {aim : Aim} {p q : Place}

/-- What stands before the place is what the records below the key are at the beginning. -/
theorem takeWhile_eq {l m : List Record} {prev next : Record}
    (split : x.chain = l ++ prev :: next :: m)
    (below : ∀ b ∈ l ++ [prev], b.compareKey key = .lt)
    (notBelow : ∀ b ∈ next :: m, b.compareKey key ≠ .lt) :
    x.chain.takeWhile (fun b => b.compareKey key = .lt) = l ++ [prev] ∧
      x.chain.dropWhile (fun b => b.compareKey key = .lt) = next :: m := by
  have hsplit : x.chain = (l ++ [prev]) ++ next :: m := by rw [split]; simp
  have hnext := notBelow next (by simp)
  rw [hsplit, List.takeWhile_append_of_pos (by simpa using below),
    List.dropWhile_append_of_pos (by simpa using below)]
  simp [hnext]

/-- **A key falls in one place only.** -/
theorem unique (hp : x.Falls key aim p) (hq : x.Falls key aim q) : p = q := by
  cases hp with
  | «at» mem equal only =>
    cases hq with
    | «at» mem' equal' _ => rw [only _ mem' equal']
    | between _ _ _ unequal => exact absurd equal (unequal rfl _ mem)
  | between split below notBelow unequal =>
    cases hq with
    | «at» mem equal _ => exact absurd equal (unequal rfl _ mem)
    | between split' below' notBelow' _ =>
      obtain ⟨ht, hd⟩ := takeWhile_eq split below notBelow
      obtain ⟨ht', hd'⟩ := takeWhile_eq split' below' notBelow'
      have hprev := List.append_inj_right' (ht.symm.trans ht') rfl
      have hnext := hd.symm.trans hd'
      rw [List.singleton_inj.mp hprev, (List.cons.inj hnext).1]

end Listing.Falls

namespace Reader.ListsKeys
variable {r : Reader} {x : Listing} {key : Key} {aim : Aim}

/-- The search on a page ends where the key falls. -/
theorem exists_falls {K : Key → Prop} (h : r.ListsKeys x) (hs : x.Slotted)
    (hfirst : x.node.index.slots[0]? = some IndexPage.infimum) (ho : Key.OrderedOn K)
    (hx : ∀ a ∈ x.records, K a.key) (hq : r.Seeks K key aim) :
    ∃ place, r.locate x.node key aim = .ok place ∧ x.Falls key aim place := by
  obtain ⟨P, Q, e, hP, hQ⟩ := h.exists_place hs hfirst ho hx hq
  rcases hQ with ⟨a, Q, rfl, heq, rfl, hlocate, hQ⟩ | ⟨hlocate, hQ⟩
  · refine ⟨_, hlocate, .at (by simp [e]) heq fun b hb hbeq => ?_⟩
    rw [e, List.mem_append, List.mem_cons] at hb
    rcases hb with hb | rfl | hb
    · rw [hP b hb] at hbeq
      cases hbeq
    · rfl
    · exact absurd (Aim.passes_some.mpr (Or.inr ⟨hbeq, rfl⟩)) (hQ b hb)
  · obtain ⟨l, hl⟩ : ∃ l, x.infimum :: P = l ++ [P.getLastD x.infimum] := by
      rcases List.eq_nil_or_concat P with rfl | ⟨P, a, rfl⟩
      · exact ⟨[], rfl⟩
      · exact ⟨x.infimum :: P, by simp⟩
    obtain ⟨m, hm⟩ : ∃ m, Q ++ [x.supremum] = Q.headD x.supremum :: m := by
      cases Q with
      | nil => exact ⟨[], rfl⟩
      | cons a Q => exact ⟨Q ++ [x.supremum], rfl⟩
    have hmemP : ∀ {b}, b ∈ P → b ∈ x.records := fun hb => by simp [e, hb]
    have hmemQ : ∀ {b}, b ∈ Q → b ∈ x.records := fun hb => by simp [e, hb]
    refine ⟨_, hlocate, .between (l := l) (m := m) ?_ ?_ ?_ ?_⟩
    · calc x.chain = x.infimum :: P ++ (Q ++ [x.supremum]) := by simp [Listing.chain, e]
        _ = l ++ P.getLastD x.infimum :: Q.headD x.supremum :: m := by rw [hl, hm]; simp
    · rw [← hl]
      rintro b (_ | ⟨_, hb⟩)
      · exact Record.compareKey_of_isInfimum h.infimum.1 key
      · rw [h.compareKey_eq (hmemP hb)]
        exact hP b hb
    · rw [← hm]
      intro b hb
      rcases List.mem_append.mp hb with hb | hb
      · rw [h.compareKey_eq (hmemQ hb)]
        exact fun hlt => hQ b hb (Aim.passes_some.mpr (Or.inl hlt))
      · rw [List.mem_singleton.mp hb, Record.compareKey_of_isSupremum h.supremum.1]
        decide
    · rintro rfl b hb hbeq
      rw [e, List.mem_append] at hb
      rcases hb with hb | hb
      · rw [hP b hb] at hbeq
        cases hbeq
      · exact hQ b hb (Aim.passes_some.mpr (Or.inr ⟨hbeq, rfl⟩))

/-- **The search on a page is a scan of its chain**: both end in the one place where the key falls.
The search is for a whole key if it is to end at it, and otherwise for the first fields of a key. -/
theorem locate_eq_scan (h : r.ListsKeys x)
    (hindex : IndexPage.ofPage x.node.page = .ok x.node.index) (hs : x.Slotted)
    (ho : Key.OrderedOn fun k => (∃ a ∈ x.records, a.key = k) ∨ k = key)
    (hlength : key.length ≤ r.keyLength) (hwhole : aim = .equal → key.length = r.keyLength) :
    ∃ place, r.locate x.node key aim = .ok place ∧
      (r.probe x.node IndexPage.infimum >>= r.scan x.node key aim x.node.index.maxSteps) =
        .ok place ∧
      ∀ p, x.Falls key aim p ↔ p = place := by
  have hfirst := (IndexPage.ofPage_eq_ok hindex).2
  have hx : ∀ a ∈ x.records, (∃ b ∈ x.records, b.key = a.key) ∨ a.key = key := fun a ha =>
    Or.inl ⟨a, ha, rfl⟩
  have hq : r.Seeks (fun k => (∃ a ∈ x.records, a.key = k) ∨ k = key) key aim :=
    ⟨Or.inr rfl, hlength, hwhole⟩
  obtain ⟨place, hlocate, hfalls⟩ := h.exists_falls hs hfirst ho hx hq
  refine ⟨place, hlocate, ?_, fun p => ⟨fun hp => hp.unique hfalls, fun e => e ▸ hfalls⟩⟩
  have hprobe := h.probed x.infimum (by simp [Listing.chain])
  have hcount := h.count
  rw [h.infimum.2] at hprobe
  rw [hprobe, ← hlocate, h.locate_eq_ok hs hfirst ho hx hq]
  refine scan_eq_ok (fun a ha => h.probed a (List.mem_cons_of_mem _ ha)) h.linked h.supremum.1 ?_
  unfold IndexPage.maxSteps
  omega

/-- The leaf on the left of the tree with one more slot, which names its second row. -/
def threeSlots : Listing :=
  { TwoLeaves.left with
    node :=
      { page :=
          { TwoLeaves.left.node.page with
            data :=
              { size := pageSize
                byte := TwoLeaves.byteOfPieces
                  ([(38, [0, 3]), (16370, [0, 112, 0, 147])] ++ TwoLeaves.piecesOf 4) }
            size_data := rfl }
        index :=
          { TwoLeaves.left.node.index with
            header := { TwoLeaves.left.node.index.header with slots := 3 }
            slots := #[99, 147, 112] } } }

/-- The searches on this leaf for its second row, and for the first row that is not below a key. The
slot in the middle of the directory is where the one ends and the other begins to scan. -/
theorem locate_eq_scan_threeSlots :
    TwoLeaves.reader.locate threeSlots.node [.int 3] .equal =
        .ok (.at (TwoLeaves.row 4 147 3 (-35) 3).keyPart) ∧
      TwoLeaves.reader.locate threeSlots.node [.int 4] .before =
        .ok (.between (TwoLeaves.row 4 147 3 (-35) 3).keyPart threeSlots.supremum.keyPart) := by
  have hlists : TwoLeaves.reader.Lists threeSlots := by decide +kernel
  have hindex : IndexPage.ofPage threeSlots.node.page = .ok threeSlots.node.index := by
    decide +kernel
  have hslotted : threeSlots.Slotted := by decide
  have ordered (n : Int) :
      Key.OrderedOn fun k => (∃ a ∈ threeSlots.records, a.key = k) ∨ k = [.int n] := by
    refine (TwoLeaves.orderedOn (K := fun k => k = [.int n]) ?_).mono fun k hk =>
      hk.imp_left fun ⟨a, ha, e⟩ => ⟨TwoLeaves.left, by simp, a, ha, e⟩
    rintro _ rfl v hv
    exact ⟨n, List.mem_singleton.mp hv⟩
  constructor
  · obtain ⟨place, hlocate, -, hfalls⟩ :=
      hlists.listsKeys.locate_eq_scan hindex hslotted (ordered 3) le_rfl
        fun _ : Aim.equal = .equal => rfl
    rw [hlocate, ← (hfalls _).mp (.at (a := TwoLeaves.row 4 147 3 (-35) 3) (by decide)
      (by decide) (by decide))]
  · obtain ⟨place, hlocate, -, hfalls⟩ :=
      hlists.listsKeys.locate_eq_scan hindex hslotted (ordered 4) le_rfl
        fun _ : Aim.before = .equal => rfl
    rw [hlocate, ← (hfalls _).mp (.between
      (l := [threeSlots.infimum, TwoLeaves.row 4 125 2 22 1]) (m := []) rfl (by decide) (by decide)
      nofun)]

end Reader.ListsKeys
end Tablespace
