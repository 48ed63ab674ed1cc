import Mathlib.Logic.Relation
import Tablespace.Proofs.ChainWalk

/-! # Where a chain decode ends

A chain decode ends at the first record that has the status of a supremum. It has to come there one
step before its bound is spent, while the scan of a search with the same bound may spend it all. And
since the status is all that it asks for, it comes to the supremum of the page only if no other
record on its way has that status.

* `Reader.scan_of_chainTo`: the scan of a search along a chain.
* `Reader.chain_within_bound`: how far a chain decode goes, and how far a scan does.
* `Codec.chain_complete_iff`: when the result of a chain decode is all that lies between infimum and
  supremum. -/

namespace Tablespace

namespace TwoLeaves

/-- The leaf on the left after some bytes of the image are written over. -/
def patchedLeft (offset : Nat) (bytes : List UInt8) : Node :=
  { left.node with
    page :=
      { left.node.page with
        data := (patched offset bytes).image.data.slice (4 * pageSize) pageSize
        size_data := rfl } }

end TwoLeaves

/-! ### How far a chain is followed -/

namespace Reader
variable {r : Reader} {n : Node} {depth : Depth} {key : Key} {aim : Aim}

/-- **A scan for a key above all records** goes to the end of the chain if that is within its
steps. -/
theorem scan_of_chainTo {a last : Record} {l : List Record} {steps : Nat}
    (h : Record.ChainTo (r.codec.read r.source n.page n.index.isLeaf depth) a l last)
    (ha : ¬ a.isSupremum) (hlt : ∀ b ∈ l.tail, b.compareKey key = .lt) :
    r.scan n key aim steps a.keyPart =
      if l.length ≤ steps then .ok (.between (l.getLastD a).keyPart last.keyPart)
      else n.page.damaged .chainUnending := by
  induction h generalizing steps with
  | supremum hs => exact absurd hs ha
  | @next a b last l hn link rest ih =>
    obtain ⟨origin, ho, hb⟩ := link
    have hprobe : r.probe n origin = .ok b.keyPart := Codec.read_key_of_read hb
    cases steps with
    | zero => rfl
    | succ steps =>
      simp only [scan, Record.nextOrigin?_keyPart, ho, hprobe, bind, Except.bind,
        Aim.isBelow?_keyPart]
      cases rest with
      | supremum hs =>
        have habove : aim.isBelow? b key = some false := by
          unfold Aim.isBelow?
          rw [Record.compareKey_of_isSupremum hs]
        simp only [habove]
        rfl
      | @next _ _ _ l hs =>
        have hbelow : aim.isBelow? b key = some true := Aim.isBelow?_eq_true.mpr (hlt b (by simp))
        simp only [hbelow, ih hs fun c hc => hlt c (List.mem_cons_of_mem _ hc), List.getLastD_cons,
          List.length_cons, Nat.add_le_add_iff_right]

/-- **How far a chain is followed**: a chain decode comes to the end of its chain if that is no more
steps away than one more than the heap has records. A search that goes along the chain with the same
bound comes one step further. -/
theorem chain_within_bound {first last : Record} {l : List Record}
    (hfirst : r.codec.read r.source n.page n.index.isLeaf depth IndexPage.infimum = .ok first)
    (h : Record.ChainTo (r.codec.read r.source n.page n.index.isLeaf depth) first l last)
    (hinf : ∀ a ∈ l.tail, ¬ a.isInfimum) :
    (r.codec.chain r.source n.page n.index depth =
      if l.length ≤ n.index.header.heapRecords + 1 then .ok l.tail
      else n.page.damaged .chainUnending) ∧
    ∀ key aim, ¬ first.isSupremum → (∀ a ∈ l.tail, a.compareKey key = .lt) →
      (r.probe n IndexPage.infimum >>= r.scan n key aim n.index.maxSteps) =
        if l.length ≤ n.index.header.heapRecords + 2 then
          .ok (.between (l.getLastD first).keyPart last.keyPart)
        else n.page.damaged .chainUnending := by
  constructor
  · rw [Codec.chain_of_chainTo hfirst h hinf]
    simp only [IndexPage.maxSteps, Nat.lt_succ_iff]
  · intro key aim hs hlt
    have hprobe : r.probe n IndexPage.infimum = .ok first.keyPart := Codec.read_key_of_read hfirst
    rw [hprobe]
    exact scan_of_chainTo h hs hlt

end Reader

namespace TwoLeaves

/-- A reader of the tree whose leaf on the left counts one record in its heap. -/
def crowdedReader : Reader := patched (4 * pageSize + 43) [1]

/-- That leaf. -/
def crowded : Node :=
  { patchedLeft (4 * pageSize + 43) [1] with index.header.heapField := 0x8001 }

theorem node_crowded : crowdedReader.node 4 = .ok crowded := by
  -- the page does not depend on the layout of its rows
  dsimp only [Reader.node, crowdedReader, crowded, patchedLeft, patched, reader, readerOf]
  cbv

theorem chainTo_crowded :
    crowdedReader.codec.read crowdedReader.source crowded.page crowded.index.isLeaf .full
        IndexPage.infimum = .ok left.infimum ∧
      Record.ChainTo
        (crowdedReader.codec.read crowdedReader.source crowded.page crowded.index.isLeaf .full)
        left.infimum (left.infimum :: left.records) left.supremum :=
  ⟨by decide +kernel,
    .next (by decide) ⟨125, by decide, by decide +kernel⟩
      (.next (by decide) ⟨147, by decide, by decide +kernel⟩
        (.next (by decide) ⟨112, by decide, by decide +kernel⟩ (.supremum (by decide))))⟩

/-- A search comes to the supremum of that leaf, and a chain decode does not. -/
theorem chain_within_bound_crowded :
    crowdedReader.codec.chain crowdedReader.source crowded.page crowded.index .full =
        crowded.page.damaged .chainUnending ∧
      (crowdedReader.probe crowded IndexPage.infimum >>=
          crowdedReader.scan crowded [.int 9] .before crowded.index.maxSteps) =
        .ok (.between (row 4 147 3 (-35) 3).keyPart left.supremum.keyPart) := by
  obtain ⟨hfirst, hto⟩ := chainTo_crowded
  obtain ⟨hchain, hscan⟩ := Reader.chain_within_bound hfirst hto (by decide)
  refine ⟨hchain.trans (if_neg (by decide)), ?_⟩
  exact (hscan [.int 9] .before (by decide) (by decide)).trans (if_pos (by decide))

/-- **A chain decode does not go as far as its bound allows**: it refuses a chain whose supremum is
two steps further away than the heap has records, and a search that goes along that chain does
not. -/
theorem not_chain_within_maxSteps :
    ¬ ∀ (r : Reader) (n : Node) (depth : Depth) (first last : Record) (l : List Record),
      IndexPage.ofPage n.page = .ok n.index →
      r.codec.read r.source n.page n.index.isLeaf depth IndexPage.infimum = .ok first →
      first.isInfimum →
      Record.ChainTo (r.codec.read r.source n.page n.index.isLeaf depth) first l last →
      (∀ a ∈ l.tail, ¬ a.isInfimum) →
      ((∃ rs, r.codec.chain r.source n.page n.index depth = .ok rs) ↔
        l.length ≤ n.index.header.heapRecords + 2) := by
  intro h
  obtain ⟨-, -, hindex, -⟩ := Reader.exists_load_of_node node_crowded
  obtain ⟨hfirst, hto⟩ := chainTo_crowded
  obtain ⟨rs, hrs⟩ := (h _ crowded .full _ _ _ hindex hfirst (by decide) hto (by decide)).mpr
    (by decide)
  rw [Codec.chain_of_chainTo hfirst hto (by decide), if_neg (by decide)] at hrs
  exact Page.damaged_ne_ok hrs

end TwoLeaves

/-! ### Where a chain ends -/

namespace Record.ChainTo
variable {read : Nat → Except Error Record} {a b last : Record} {l : List Record}

/-- What a chain reaches is what it walks to its end. -/
theorem reaches_iff (h : ChainTo read a l last) :
    Relation.ReflTransGen (LeadsTo read) a b ↔ b ∈ l ++ [last] := by
  induction h with
  | @supremum a hs =>
    rw [List.nil_append, List.mem_singleton]
    constructor
    · intro h
      rcases h.cases_head with rfl | ⟨c, ⟨origin, ho, -⟩, -⟩
      · rfl
      · rw [nextOrigin?_of_isSupremum hs] at ho
        cases ho
    · rintro rfl
      exact .refl
  | @next a c last l hn link rest ih =>
    rw [List.cons_append, List.mem_cons, ← ih]
    constructor
    · intro h
      rcases h.cases_head with rfl | ⟨d, hd, h⟩
      · exact Or.inl rfl
      · exact Or.inr (link.unique hd ▸ h)
    · rintro (rfl | h)
      · exact .refl
      · exact .head link h

theorem eq_of_isSupremum (h : ChainTo read a l last) (hb : b ∈ l ++ [last])
    (hs : b.isSupremum) : b = last := by
  rcases List.mem_append.mp hb with hb | hb
  · exact absurd hs (h.not_isSupremum b hb)
  · exact List.mem_singleton.mp hb

theorem eq_of_isInfimum (h : ChainTo read a l last) (hb : b ∈ l ++ [last])
    (hinf : ∀ c ∈ l.tail, ¬ c.isInfimum) (hi : b.isInfimum) : b = a := by
  rcases List.mem_append.mp hb with hl | hlast
  · cases h with
    | supremum => exact absurd hl List.not_mem_nil
    | next =>
      rcases List.mem_cons.mp hl with rfl | hl
      · rfl
      · exact absurd hi (hinf b hl)
  · rw [List.mem_singleton.mp hlast] at hi
    exact absurd hi (not_isInfimum_of_isSupremum h.isSupremum)

end Record.ChainTo

namespace Codec

/-- **The system records are in their places** along the chain of a page: what the chain reaches has
the status of an infimum or of a supremum just if it is at the origin of that. -/
def SystemInPlace (read : Nat → Except Error Record) : Prop :=
  ∀ first, read IndexPage.infimum = .ok first →
    ∀ a, Relation.ReflTransGen (Record.LeadsTo read) first a →
      (a.isInfimum ↔ a.origin = IndexPage.infimum) ∧ (a.isSupremum ↔ a.origin = IndexPage.supremum)

/-- **Some records are all those of a page**: they lie between the infimum and the supremum in
their places. -/
def LiesBetween (read : Nat → Except Error Record) (rs : List Record) : Prop :=
  ∃ first l last, read IndexPage.infimum = .ok first ∧ first.isInfimum ∧
    Record.ChainTo read first l last ∧ l.tail = rs ∧ last.origin = IndexPage.supremum

variable {c : Codec} {src : PageSource} {p : Page} {x : IndexPage} {depth : Depth}

/-- **A chain decode that succeeds gives all records of a page** just if the system records are in
their places along the chain: their status alone tells it where to end. -/
theorem chain_complete_iff {rs : List Record} (hrs : c.chain src p x depth = .ok rs) :
    LiesBetween (c.read src p x.isLeaf depth) rs ↔
      SystemInPlace (c.read src p x.isLeaf depth) := by
  obtain ⟨first, l, last, hfirst, h, rfl, hinf, -⟩ := chain_eq_ok_iff.mp hrs
  have horigin := (origin_of_read hfirst).1
  have hread := read_of_chainTo h (by rw [horigin]; exact hfirst)
  constructor
  · rintro ⟨first', l', last', hfirst', hi, h', -, ho⟩
    cases hfirst.symm.trans hfirst'
    obtain ⟨rfl, rfl⟩ := h.unique h'
    intro first' hfirst' a ha
    cases hfirst.symm.trans hfirst'
    have ha := h.reaches_iff.mp ha
    refine ⟨⟨fun hai => ?_, fun e => ?_⟩, fun has => ?_, fun e => ?_⟩
    · rw [h.eq_of_isInfimum ha hinf hai, horigin]
    · have haread := hread a ha
      rw [e, hfirst] at haread
      cases haread
      exact hi
    · rw [h.eq_of_isSupremum ha has, ho]
    · have haread := hread a ha
      rw [e, ← ho, hread last (by simp)] at haread
      cases haread
      exact h.isSupremum
  · intro hsystem
    have hplace := hsystem first hfirst
    refine ⟨first, l, last, hfirst, (hplace first .refl).1.mpr horigin, h, rfl, ?_⟩
    exact (hplace last (h.reaches_iff.mpr (by simp))).2.mp h.isSupremum

end Codec

namespace TwoLeaves

/-- A reader of the tree whose second row has the status of a supremum. -/
def cutReader : Reader := patched (4 * pageSize + 144) [0x1B]

/-- The leaf of that row. -/
def cut : Node := patchedLeft (4 * pageSize + 144) [0x1B]

theorem node_cut : cutReader.node 4 = .ok cut := by
  dsimp only [Reader.node, cutReader, cut, patchedLeft, patched, reader, readerOf]
  cbv

theorem chainTo_cut :
    cutReader.codec.read cutReader.source cut.page cut.index.isLeaf .full IndexPage.infimum =
        .ok left.infimum ∧
      Record.ChainTo (cutReader.codec.read cutReader.source cut.page cut.index.isLeaf .full)
        left.infimum [left.infimum, row 4 125 2 22 1] (record 4 147 3 .supremum (-35)) :=
  ⟨by decide +kernel,
    .next (by decide) ⟨125, by decide, by decide +kernel⟩
      (.next (by decide) ⟨147, by decide, by decide +kernel⟩ (.supremum (by decide)))⟩

theorem chain_cut : cutReader.codec.chain cutReader.source cut.page cut.index .full =
    .ok [row 4 125 2 22 1] := by
  obtain ⟨hfirst, hto⟩ := chainTo_cut
  rw [Codec.chain_of_chainTo hfirst hto (by decide), if_pos (by decide)]
  rfl

theorem not_liesBetween_cut (rs : List Record) :
    ¬ Codec.LiesBetween (cutReader.codec.read cutReader.source cut.page cut.index.isLeaf .full)
      rs := by
  obtain ⟨hread, hto⟩ := chainTo_cut
  rintro ⟨first, l, last, hfirst, -, hchain, -, ho⟩
  cases hread.symm.trans hfirst
  obtain ⟨-, rfl⟩ := hto.unique hchain
  exact absurd ho (by decide)

/-- On the leaf of that row a system record is out of place, and so the decode is not complete. -/
theorem chain_complete_iff_cut :
    cutReader.codec.chain cutReader.source cut.page cut.index .full = .ok [row 4 125 2 22 1] ∧
      ¬ Codec.SystemInPlace
        (cutReader.codec.read cutReader.source cut.page cut.index.isLeaf .full) :=
  ⟨chain_cut, (Codec.chain_complete_iff chain_cut).not.mp (not_liesBetween_cut _)⟩

/-- **A chain decode may end early without a failure**: the checks that an index page has passed do
not say which of its records have the status of a supremum. -/
theorem not_chain_complete :
    ¬ ∀ (c : Codec) (src : PageSource) (p : Page) (x : IndexPage) (depth : Depth)
        (rs : List Record),
      IndexPage.ofPage p = .ok x → c.chain src p x depth = .ok rs →
      Codec.LiesBetween (c.read src p x.isLeaf depth) rs := by
  intro h
  obtain ⟨-, -, hindex, -⟩ := Reader.exists_load_of_node node_cut
  exact not_liesBetween_cut _ (h _ _ _ _ _ _ hindex chain_cut)

end TwoLeaves
end Tablespace
