import Tablespace.Proofs.Found

/-! # What a chain decode walks

A chain decode starts at the place of the infimum and goes from record to record, whatever the page
holds, up to the first record that has the status of a supremum. Any other record that is decoded
leads to an origin in the body of its page.

* `Codec.nextOrigin?_of_read`: only a supremum ends a chain.
* `Codec.chain_of_chainTo`: what a chain decode makes of a chain that has an end.
* `Codec.chain_eq_ok_iff`: a chain decode succeeds just if it comes to the end within its bound, and
  past no second infimum.
* `Codec.chain_decodes_iff`: what the records of the result are. -/

namespace Tablespace

namespace Codec
variable {c : Codec} {src : PageSource} {p : Page} {leaf : Bool} {depth : Depth}

theorem readHeader_of_read {origin : Nat} {r : Record}
    (e : c.read src p leaf depth origin = .ok r) : readHeader p origin = .ok r.header := by
  obtain ⟨header, hh, ⟨-, e⟩ | ⟨-, e⟩⟩ := read_eq_ok.mp (read_key_of_read e)
  · have hr : header = r.header := congrArg Record.header e
    rw [hh, hr]
  · obtain ⟨key, child, -, -, e⟩ := readUser_key_eq_ok e
    have hr : r.header = header := congrArg Record.header e
    rw [hh, hr]

theorem next_of_readHeader {origin : Nat} {header : RecordHeader}
    (e : readHeader p origin = .ok header) (h : header.status ≠ .supremum) :
    header.next ≠ 0 ∧ (IndexPage.supremum : Int) ≤ origin + header.next ∧
      origin + header.next < bodyEnd := by
  unfold readHeader at e
  rw [bind_eq_ok] at e
  obtain ⟨header', -, e⟩ := e
  split at e
  · rw [bind_eq_ok] at e
    obtain ⟨_, hnext, e⟩ := e
    cases e
    unfold checkNext at hnext
    simp only at hnext
    split at hnext
    · exact absurd hnext Page.damaged_ne_ok
    · omega
  · next hs =>
    cases e
    exact absurd h hs

/-- **Only a supremum ends a chain**: any other record that is decoded has a next origin, past the
infimum and in the body of the page. -/
theorem nextOrigin?_of_read {origin : Nat} {r : Record}
    (e : c.read src p leaf depth origin = .ok r) (h : ¬ r.isSupremum) :
    ∃ next, r.nextOrigin? = some next ∧ IndexPage.supremum ≤ next ∧ next < bodyEnd := by
  have hs : r.header.status ≠ .supremum := fun hs => h (decide_eq_true hs)
  obtain ⟨hne, hlow, hhigh⟩ := next_of_readHeader (readHeader_of_read e) hs
  rw [← (origin_of_read e).1] at hlow hhigh
  refine ⟨(r.origin + r.header.next).toNat, ?_, by omega, by omega⟩
  unfold Record.nextOrigin?
  rw [if_neg (by simp [h, hne])]
  exact if_neg (by omega)

/-- Along a chain, each record is decoded at its own origin. -/
theorem read_of_chainTo {a last : Record} {l : List Record}
    (h : Record.ChainTo (c.read src p leaf depth) a l last)
    (ha : c.read src p leaf depth a.origin = .ok a) :
    ∀ b ∈ l ++ [last], c.read src p leaf depth b.origin = .ok b := by
  induction h with
  | supremum => simpa using ha
  | next _ link _ ih =>
    obtain ⟨origin, -, hb⟩ := link
    exact List.forall_mem_cons.mpr ⟨ha, ih (by rw [(origin_of_read hb).1]; exact hb)⟩

/-- A chain decode that succeeds has come to the end of the chain. -/
theorem exists_chainTo_of_chainFrom {a : Record} {rs : List Record} {steps : Nat}
    (ha : ∃ origin, c.read src p leaf depth origin = .ok a)
    (h : chainFrom (c.read src p leaf depth) p steps a = .ok rs) :
    ∃ l last, Record.ChainTo (c.read src p leaf depth) a l last ∧ ∀ b ∈ l.tail, ¬ b.isInfimum := by
  induction steps generalizing a rs with
  | zero => exact absurd h Page.damaged_ne_ok
  | succ steps ih =>
    by_cases hs : a.isSupremum
    · exact ⟨[], a, .supremum hs, by simp⟩
    · obtain ⟨origin, hread⟩ := ha
      obtain ⟨next, ho, -, -⟩ := nextOrigin?_of_read hread hs
      rw [chainFrom, ho] at h
      simp only [bind_eq_ok] at h
      obtain ⟨b, hb, h⟩ := h
      split at h
      · exact absurd h Page.damaged_ne_ok
      · next hi =>
        rw [bind_eq_ok] at h
        obtain ⟨rest, hrest, -⟩ := h
        obtain ⟨l, last, hchain, hinf⟩ := ih ⟨next, hb⟩ hrest
        exact ⟨a :: l, last, .next hs ⟨next, ho, hb⟩ hchain,
          hchain.not_isInfimum_iff.mpr ⟨hi, hinf⟩⟩

/-- What a chain decode makes of the chain from the place of the infimum. -/
theorem chain_of_chainTo {x : IndexPage} {first last : Record} {l : List Record}
    (hfirst : c.read src p x.isLeaf depth IndexPage.infimum = .ok first)
    (h : Record.ChainTo (c.read src p x.isLeaf depth) first l last)
    (hinf : ∀ a ∈ l.tail, ¬ a.isInfimum) :
    c.chain src p x depth =
      if l.length < x.maxSteps then .ok l.tail else p.damaged .chainUnending := by
  unfold chain
  simp only [hfirst, bind, Except.bind]
  exact chainFrom_of_chainTo h hinf

/-- **A chain decode that succeeds** has walked from the place of the infimum to the end of its
chain, past no second infimum and past no more records than the heap holds. -/
theorem chain_eq_ok_iff {x : IndexPage} {rs : List Record} :
    c.chain src p x depth = .ok rs ↔
      ∃ first l last, c.read src p x.isLeaf depth IndexPage.infimum = .ok first ∧
        Record.ChainTo (c.read src p x.isLeaf depth) first l last ∧ l.tail = rs ∧
        (∀ a ∈ rs, ¬ a.isInfimum) ∧ rs.length ≤ x.header.heapRecords := by
  -- the first record and the step that finds the end are the two by which the bound is larger
  have hbound (l : List Record) :
      l.length < x.maxSteps ↔ l.tail.length ≤ x.header.heapRecords := by
    unfold IndexPage.maxSteps
    rw [List.length_tail]
    omega
  constructor
  · intro h
    have hchain := h
    unfold chain at hchain
    simp only [bind_eq_ok] at hchain
    obtain ⟨first, hfirst, hchain⟩ := hchain
    obtain ⟨l, last, hto, hinf⟩ := exists_chainTo_of_chainFrom ⟨_, hfirst⟩ hchain
    rw [chain_of_chainTo hfirst hto hinf] at h
    split at h
    · next hlen =>
      cases h
      exact ⟨first, l, last, hfirst, hto, rfl, hinf, (hbound l).mp hlen⟩
    · exact absurd h Page.damaged_ne_ok
  · rintro ⟨first, l, last, hfirst, hto, rfl, hinf, hlen⟩
    rw [chain_of_chainTo hfirst hto hinf, if_pos ((hbound l).mpr hlen)]

/-- **What a chain decode walks, on any bytes**: it succeeds just if the records from the place of
the infimum lead to a supremum, past no second infimum and past no more user records than the heap
holds. Its result is what stands between the first record and that supremum: user records of the
level of the page, each as it is decoded at its origin, and no origin twice. -/
theorem chain_decodes_iff (c : Codec) (src : PageSource) (p : Page) (x : IndexPage) (depth : Depth)
    (rs : List Record) :
    (c.chain src p x depth = .ok rs ↔
      ∃ first l last, c.read src p x.isLeaf depth IndexPage.infimum = .ok first ∧
        Record.ChainTo (c.read src p x.isLeaf depth) first l last ∧ l.tail = rs ∧
        (∀ a ∈ rs, ¬ a.isInfimum) ∧ rs.length ≤ x.header.heapRecords) ∧
    (c.chain src p x depth = .ok rs →
      (∀ a ∈ rs, a.status = .ofLevel x.isLeaf ∧
          c.read src p x.isLeaf depth a.origin = .ok a) ∧
        (rs.map Record.origin).Nodup) := by
  refine ⟨chain_eq_ok_iff, fun hrs => ?_⟩
  obtain ⟨first, l, last, hfirst, h, rfl, hinf, -⟩ := chain_eq_ok_iff.mp hrs
  have hread := read_of_chainTo h (by rw [(origin_of_read hfirst).1]; exact hfirst)
  have hsub : l.tail.Sublist (l ++ [last]) :=
    (List.tail_sublist l).trans (List.sublist_append_left l [last])
  refine ⟨fun a ha => ⟨?_, hread a (hsub.subset ha)⟩, (h.nodup hread).sublist (hsub.map _)⟩
  refine status_of_read (hread a (hsub.subset ha)) (Record.isUser_iff.mpr ⟨hinf a ha, ?_⟩)
  exact h.not_isSupremum a (List.mem_of_mem_tail ha)

/-- The chain of a leaf with two rows. -/
theorem chain_decodes_iff_twoLeaves :
    ∃ rs, TwoLeaves.reader.codec.chain TwoLeaves.reader.source TwoLeaves.left.node.page
        TwoLeaves.left.node.index .full = .ok rs ∧ rs.length = 2 ∧
      rs.length ≤ TwoLeaves.left.node.index.header.heapRecords ∧
      (∀ a ∈ rs, a.status = .ordinary ∧
        TwoLeaves.reader.codec.read TwoLeaves.reader.source TwoLeaves.left.node.page true .full
          a.origin = .ok a) ∧
      (rs.map Record.origin).Nodup := by
  have hlists := TwoLeaves.subtree_left.lists TwoLeaves.left (by simp)
  obtain ⟨hiff, hrs⟩ := chain_decodes_iff TwoLeaves.reader.codec TwoLeaves.reader.source
    TwoLeaves.left.node.page TwoLeaves.left.node.index .full TwoLeaves.left.records
  obtain ⟨_, _, _, -, -, -, -, hcount⟩ := hiff.mp hlists.chain_eq_ok
  exact ⟨_, hlists.chain_eq_ok, rfl, hcount, hrs hlists.chain_eq_ok⟩

end Codec
end Tablespace
