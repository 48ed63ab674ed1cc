import Tablespace.Proofs.KeyOrder
import Tablespace.Proofs.Links
import Tablespace.Tree.Search

/-! # The chain of a page

A *listing* of a page is what its chain runs through: infimum, user records and supremum.
On a page whose keys ascend, halving the directory and then following the chain from one slot before
finds what following the chain from the infimum would have found.

* `Reader.Lists`: a page has a listing. `Reader.ListsKeys`: it has one as far as a search decodes
  records. `Listing.Slotted`: its directory names some records of the chain in their order.
* `Reader.records_eq_ok`: the user records of a listed page are those of its listing.
* `Place.among`: where a key falls among records in a row, one record tried after the other.
* `Reader.ListsKeys.locate_eq_ok`: the search on a listed page ends there. -/

namespace Tablespace

/-- **A page of an index, and the records of its chain.** -/
structure Listing where
  node : Node
  infimum : Record
  records : List Record
  supremum : Record

/-- The records of a listing, the system records among them. -/
def Listing.chain (x : Listing) : List Record := x.infimum :: (x.records ++ [x.supremum])

/-- The record at an origin of a page, as far as a scan decodes it. -/
def Reader.decodeAt (r : Reader) (n : Node) (origin : Nat) : Except Error Record :=
  r.codec.read r.source n.page n.index.isLeaf (Reader.scanDepth n.index) origin

/-- **A page has a listing**: each record of the listing is decoded at its origin and leads to the
next one, from the infimum past user records to the supremum. The user records are no more than the
heap holds, and their keys strictly ascend. -/
structure Reader.Lists (r : Reader) (x : Listing) : Prop where
  decoded : ∀ a ∈ x.chain, r.decodeAt x.node a.origin = .ok a
  linked : x.chain.IsChain fun a b => a.nextOrigin? = some b.origin
  infimum : x.infimum.isInfimum ∧ x.infimum.origin = IndexPage.infimum
  supremum : x.supremum.isSupremum ∧ x.supremum.origin = IndexPage.supremum
  user : ∀ a ∈ x.records, a.isUser
  count : x.records.length ≤ x.node.index.header.heapRecords
  ascending : x.records.Pairwise fun a b => compareKeys a.key b.key = .lt

instance (r : Reader) (x : Listing) : Decidable (r.Lists x) :=
  decidable_of_iff
    ((∀ a ∈ x.chain, r.decodeAt x.node a.origin = .ok a) ∧
      (x.chain.IsChain fun a b => a.nextOrigin? = some b.origin) ∧
      (x.infimum.isInfimum ∧ x.infimum.origin = IndexPage.infimum) ∧
      (x.supremum.isSupremum ∧ x.supremum.origin = IndexPage.supremum) ∧
      (∀ a ∈ x.records, a.isUser) ∧ x.records.length ≤ x.node.index.header.heapRecords ∧
      x.records.Pairwise fun a b => compareKeys a.key b.key = .lt)
    ⟨fun ⟨decoded, linked, infimum, supremum, user, count, ascending⟩ =>
      { decoded, linked, infimum, supremum, user, count, ascending },
     fun h => ⟨h.decoded, h.linked, h.infimum, h.supremum, h.user, h.count, h.ascending⟩⟩

/-- **A page has a listing of keys**: what a listing says, of records that are decoded up to their
keys. The rest of a row may be damaged. -/
structure Reader.ListsKeys (r : Reader) (x : Listing) : Prop where
  probed : ∀ a ∈ x.chain, r.probe x.node a.origin = .ok a.keyPart
  linked : x.chain.IsChain fun a b => a.nextOrigin? = some b.origin
  infimum : x.infimum.isInfimum ∧ x.infimum.origin = IndexPage.infimum
  supremum : x.supremum.isSupremum ∧ x.supremum.origin = IndexPage.supremum
  user : ∀ a ∈ x.records, a.isUser
  count : x.records.length ≤ x.node.index.header.heapRecords
  ascending : x.records.Pairwise fun a b => compareKeys a.key b.key = .lt

/-- A search is for a key from among some keys: for the first fields of a key, or for a whole key if
it is to end at it. -/
structure Reader.Seeks (r : Reader) (K : Key → Prop) (key : Key) (aim : Aim) : Prop where
  known : K key
  length : key.length ≤ r.keyLength
  whole : aim = .equal → key.length = r.keyLength

/-- **The directory of a page is in order**: its slots name records of the chain, each after those
of the slots before it. -/
def Listing.Slotted (x : Listing) : Prop :=
  x.node.index.slots.toList.Sublist (x.chain.map Record.origin)

instance (x : Listing) : Decidable x.Slotted := inferInstanceAs (Decidable (List.Sublist _ _))

/-! ### Following the chain -/

namespace Reader.Lists
variable {r : Reader} {x : Listing} (h : r.Lists x)
include h

/-- The chain of a listing, whose user records are neither infimum nor supremum. -/
theorem chainTo : Record.ChainTo (r.decodeAt x.node) x.infimum (x.infimum :: x.records)
    x.supremum := by
  refine .of_isChain (fun a ha => h.decoded a (List.mem_cons_of_mem _ ha)) h.linked ?_ ?_
    h.supremum.1
  · exact fun hs => Record.not_isInfimum_of_isSupremum hs h.infimum.1
  · exact fun a ha => (Record.isUser_iff.mp (h.user a ha)).2

theorem chain_eq_ok :
    r.codec.chain r.source x.node.page x.node.index (scanDepth x.node.index) = .ok x.records := by
  have hfirst := h.decoded x.infimum (by simp [Listing.chain])
  have hcount := h.count
  rw [h.infimum.2] at hfirst
  unfold Codec.chain
  rw [bind_eq_ok]
  refine ⟨x.infimum, hfirst, (Codec.chainFrom_of_chainTo h.chainTo ?_).trans (if_pos ?_)⟩
  · exact fun a ha => (Record.isUser_iff.mp (h.user a ha)).1
  · unfold IndexPage.maxSteps
    rw [List.length_cons]
    omega

/-- **The user records of a listed page.** -/
theorem records_eq_ok (hs : r.options.strictRecordCount = false) :
    r.records x.node = .ok x.records := by
  unfold records
  rw [h.chain_eq_ok]
  simp [hs, bind, Except.bind, pure, Except.pure]

theorem probe_eq_ok {a : Record} (ha : a ∈ x.chain) :
    r.probe x.node a.origin = .ok a.keyPart := Codec.read_key_of_read (h.decoded a ha)

/-- A page with a listing has one of keys. -/
theorem listsKeys : r.ListsKeys x where
  probed _ ha := h.probe_eq_ok ha
  linked := h.linked
  infimum := h.infimum
  supremum := h.supremum
  user := h.user
  count := h.count
  ascending := h.ascending

omit h in
theorem mem_chain {a : Record} (ha : a ∈ x.records) : a ∈ x.chain := by
  simp [Listing.chain, ha]

theorem length_key {a : Record} (ha : a ∈ x.records) : a.key.length = r.keyLength :=
  Codec.length_key_of_read (h.decoded a (mem_chain ha)) (h.user a ha)

end Reader.Lists

namespace Reader.ListsKeys
variable {r : Reader} {x : Listing} (h : r.ListsKeys x)
include h

theorem length_key {a : Record} (ha : a ∈ x.records) : a.key.length = r.keyLength :=
  Codec.length_key_of_read (r := a.keyPart) (h.probed a (Lists.mem_chain ha)) (h.user a ha)

theorem compareKey_eq {a : Record} (ha : a ∈ x.records) (k : Key) :
    a.compareKey k = compareKeys a.key k := Record.compareKey_of_isUser (h.user a ha) k

/-- Along the chain, what is below a bound stands before what is not. -/
theorem pairwise_below {K : Key → Prop} (ho : Key.OrderedOn K) (hx : ∀ a ∈ x.records, K a.key)
    {k : Key} (hk : K k) (hl : k.length ≤ r.keyLength) :
    x.chain.Pairwise fun a b => b.compareKey k = .lt → a.compareKey k = .lt := by
  unfold Listing.chain
  refine List.pairwise_cons.mpr ⟨fun b _ _ => Record.compareKey_of_isInfimum h.infimum.1 k, ?_⟩
  refine List.pairwise_append.mpr ⟨?_, List.pairwise_singleton _ _, fun a _ b hb e => ?_⟩
  · refine h.ascending.imp_of_mem fun {a b} ha hb hab hbk => ?_
    rw [h.compareKey_eq hb] at hbk
    rw [h.compareKey_eq ha]
    exact compareKeys_of_le_of_lt ho (hx a ha) (hx b hb) hk (by rw [h.length_key ha]; exact hl)
      (by rw [h.length_key hb]; exact hl) (by rw [hab]; rfl) hbk
  · rw [List.mem_singleton.mp hb, Record.compareKey_of_isSupremum h.supremum.1] at e
    cases e

end Reader.ListsKeys

/-! ### Trying one record after the other -/

/-- **Where a key falls among records in a row**, each tried in turn. -/
def Place.among (aim : Aim) (key : Key) (last : Record) : Record → List Record → Place
  | prev, [] => .between prev.keyPart last.keyPart
  | prev, a :: l =>
    match aim.isBelow? a key with
    | none => .at a.keyPart
    | some true => among aim key last a l
    | some false => .between prev.keyPart a.keyPart

namespace Aim
variable {aim : Aim} {a : Record} {key : Key}

theorem isBelow?_keyPart : aim.isBelow? a.keyPart key = aim.isBelow? a key := rfl

theorem isBelow?_eq_true : aim.isBelow? a key = some true ↔ a.compareKey key = .lt := by
  unfold Aim.isBelow?
  cases a.compareKey key <;> cases aim <;> simp

theorem isBelow?_eq_none :
    aim.isBelow? a key = none ↔ a.compareKey key = .eq ∧ aim = .equal := by
  unfold Aim.isBelow?
  cases a.compareKey key <;> cases aim <;> simp

end Aim

namespace Place
variable {aim : Aim} {key : Key} {last prev : Record}

theorem among_append {a : Record} {l m : List Record} (hl : ∀ b ∈ l, b.compareKey key = .lt)
    (ha : a.compareKey key = .lt) :
    among aim key last prev (l ++ a :: m) = among aim key last a m := by
  induction l generalizing prev with
  | nil => rw [List.nil_append, among, Aim.isBelow?_eq_true.mpr ha]
  | cons b l ih =>
    rw [List.cons_append, among, Aim.isBelow?_eq_true.mpr (hl b (by simp))]
    exact ih fun c hc => hl c (by simp [hc])

/-- A record at which the search ends is reached past records below the key. -/
theorem among_append_of_eq {a : Record} {l m : List Record}
    (hl : ∀ b ∈ l, b.compareKey key = .lt) (ha : aim.isBelow? a key = none) :
    among aim key last prev (l ++ a :: m) = .at a.keyPart := by
  induction l generalizing prev with
  | nil => rw [List.nil_append, among, ha]
  | cons b l ih =>
    rw [List.cons_append, among, Aim.isBelow?_eq_true.mpr (hl b (by simp))]
    exact ih fun c hc => hl c (by simp [hc])

end Place

/-! ### Searching a page -/

namespace Reader
variable {r : Reader} {n : Node} {key : Key} {aim : Aim}

theorem scan_eq_ok {prev last : Record} {l : List Record} {steps : Nat}
    (hr : ∀ a ∈ l ++ [last], r.probe n a.origin = .ok a.keyPart)
    (hc : (prev :: (l ++ [last])).IsChain fun a b => a.nextOrigin? = some b.origin)
    (hl : last.isSupremum) (hs : l.length + 1 ≤ steps) :
    r.scan n key aim steps prev.keyPart = .ok (Place.among aim key last prev l) := by
  induction l generalizing prev steps with
  | nil =>
    obtain ⟨steps, rfl⟩ : ∃ k, steps = k + 1 := ⟨steps - 1, by simp at hs; omega⟩
    simp only [List.nil_append, List.isChain_cons_cons] at hc
    have hgt : aim.isBelow? last key = some false := by
      unfold Aim.isBelow?
      rw [Record.compareKey_of_isSupremum hl]
    simp only [scan, Record.nextOrigin?_keyPart, hc.1, hr last (by simp), bind, Except.bind,
      Aim.isBelow?_keyPart, hgt]
    rfl
  | cons a l ih =>
    obtain ⟨steps, rfl⟩ : ∃ k, steps = k + 1 := ⟨steps - 1, by simp at hs; omega⟩
    simp only [List.cons_append, List.isChain_cons_cons] at hc
    simp only [scan, Record.nextOrigin?_keyPart, hc.1, hr a (by simp), bind, Except.bind,
      Aim.isBelow?_keyPart, Place.among]
    cases aim.isBelow? a key with
    | none => rfl
    | some b =>
      cases b with
      | false => rfl
      | true =>
        exact ih (fun b hb => hr b (by simp at hb ⊢; tauto)) hc.2 (by simp at hs; omega)

theorem slotAt_eq_ok {slots : Array Nat} {owners : List Record} {i : Nat}
    (hs : slots.toList = owners.map Record.origin) (hi : i < owners.length) :
    slotAt slots i = .ok owners[i].origin := by
  have : slots[i]? = some owners[i].origin := by
    rw [← Array.getElem?_toList, hs, List.getElem?_map, List.getElem?_eq_getElem hi]
    rfl
  rw [slotAt, this]

/-- The halving of a directory ends at the record of a slot where the search ends, or with a slot
whose record is below the key, unless that is the first slot. -/
theorem bracket_eq_ok (r : Reader) (key : Key) (aim : Aim) {owners : List Record}
    (hs : n.index.slots.toList = owners.map Record.origin)
    (hr : ∀ a ∈ owners, r.probe n a.origin = .ok a.keyPart) {lo hi : Nat}
    (hlo : lo < owners.length) (hhi : hi < owners.length)
    (hb : lo = 0 ∨ owners[lo].compareKey key = .lt) :
    (∃ a ∈ owners, aim.isBelow? a key = none ∧ r.bracket n key aim lo hi = .ok (.inl a.keyPart)) ∨
      ∃ i, ∃ hi' : i < owners.length, (i = 0 ∨ owners[i].compareKey key = .lt) ∧
        r.bracket n key aim lo hi = .ok (.inr i) := by
  -- on the distance of the two slots, the lower of which stays below the key
  induction hd : hi - lo using Nat.strongRecOn generalizing lo hi with
  | ind d ih =>
    rw [bracket]
    split
    · next hlt =>
      have hm : (lo + hi) / 2 < owners.length := by omega
      simp only [slotAt_eq_ok hs hm, hr _ (List.getElem_mem hm), bind, Except.bind,
        Aim.isBelow?_keyPart]
      cases hb' : aim.isBelow? owners[(lo + hi) / 2] key with
      | none => exact Or.inl ⟨_, List.getElem_mem hm, hb', rfl⟩
      | some b =>
        cases b with
        | false => exact ih _ (by omega) hlo hm hb rfl
        | true => exact ih _ (by omega) hm hhi (Or.inr (Aim.isBelow?_eq_true.mp hb')) rfl
    · exact Or.inr ⟨lo, hlo, hb, rfl⟩

end Reader

namespace Reader.ListsKeys
variable {r : Reader} {x : Listing} {key : Key} {aim : Aim} {K : Key → Prop}

/-- Trying one record after the other may begin at any record below the key. -/
theorem among_eq_of_below (h : r.ListsKeys x) (ho : Key.OrderedOn K)
    (hx : ∀ a ∈ x.records, K a.key) (hq : r.Seeks K key aim) {a : Record} (ha : a ∈ x.chain)
    (hb : a.compareKey key = .lt) : ∃ l, (a :: (l ++ [x.supremum])).IsSuffix x.chain ∧
      Place.among aim key x.supremum x.infimum x.records =
        Place.among aim key x.supremum a l := by
  have hp := h.pairwise_below ho hx hq.known hq.length
  unfold Listing.chain at ha hp ⊢
  rcases List.mem_cons.mp ha with rfl | ha
  · exact ⟨x.records, List.suffix_rfl, rfl⟩
  rcases List.mem_append.mp ha with ha | ha
  · obtain ⟨l, m, e⟩ := List.mem_iff_append.mp ha
    refine ⟨m, ⟨x.infimum :: l, by rw [e]; simp⟩, ?_⟩
    rw [e]
    refine Place.among_append (fun b hb' => ?_) hb
    rw [e, List.append_assoc, List.pairwise_cons, List.pairwise_append] at hp
    exact hp.2.2.2 b hb' a (by simp) hb
  · rw [List.mem_singleton.mp ha, Record.compareKey_of_isSupremum h.supremum.1] at hb
    cases hb

/-- Trying one record after the other ends at the record of a whole key. -/
theorem among_eq_of_equal (h : r.ListsKeys x) (ho : Key.OrderedOn K)
    (hx : ∀ a ∈ x.records, K a.key) (hq : r.Seeks K key aim) {a : Record} (ha : a ∈ x.chain)
    (hb : aim.isBelow? a key = none) :
    Place.among aim key x.supremum x.infimum x.records = .at a.keyPart := by
  obtain ⟨heq, haim⟩ := Aim.isBelow?_eq_none.mp hb
  unfold Listing.chain at ha
  rcases List.mem_cons.mp ha with rfl | ha
  · rw [Record.compareKey_of_isInfimum h.infimum.1] at heq
    cases heq
  rcases List.mem_append.mp ha with ha | ha
  · obtain ⟨l, m, e⟩ := List.mem_iff_append.mp ha
    rw [e]
    refine Place.among_append_of_eq (fun b hb' => ?_) hb
    have hmem : b ∈ x.records := by rw [e]; simp [hb']
    have hba : compareKeys b.key a.key = .lt := by
      have hasc := h.ascending
      rw [e, List.pairwise_append] at hasc
      exact hasc.2.2 b hb' a (by simp)
    rw [h.compareKey_eq hmem]
    rw [h.compareKey_eq ha] at heq
    exact compareKeys_of_lt_of_le ho (hx b hmem) (hx a ha) hq.known hba
      (Or.inr ⟨heq, by rw [h.length_key ha, hq.whole haim]⟩)
  · rw [List.mem_singleton.mp ha, Record.compareKey_of_isSupremum h.supremum.1] at heq
    cases heq

/-- **The search on a listed page** ends where trying one record after the other does. -/
theorem locate_eq_ok (h : r.ListsKeys x) (hs : x.Slotted)
    (hfirst : x.node.index.slots[0]? = some IndexPage.infimum) (ho : Key.OrderedOn K)
    (hx : ∀ a ∈ x.records, K a.key) (hq : r.Seeks K key aim) :
    r.locate x.node key aim = .ok (Place.among aim key x.supremum x.infimum x.records) := by
  obtain ⟨owners, hsub, hslots⟩ := List.sublist_map_iff.mp hs
  have hprobe : ∀ a ∈ owners, r.probe x.node a.origin = .ok a.keyPart := fun a ha =>
    h.probed a (hsub.subset ha)
  have hsize : x.node.index.slots.size = owners.length := by
    rw [← Array.length_toList, hslots, List.length_map]
  -- the first slot names the infimum, since two records at one origin have the same header
  obtain ⟨hpos, hinf⟩ : ∃ hp : 0 < owners.length, owners[0].isInfimum := by
    rw [← Array.getElem?_toList, hslots, List.getElem?_map] at hfirst
    obtain ⟨a, ha, hao⟩ := Option.map_eq_some_iff.mp hfirst
    obtain ⟨hp, rfl⟩ := List.getElem?_eq_some_iff.mp ha
    have h1 := h.probed _ (hsub.subset (List.getElem_mem hp))
    have h2 := h.probed x.infimum (by simp [Listing.chain])
    rw [h.infimum.2, ← hao, h1] at h2
    have hi : x.infimum.keyPart.isInfimum := h.infimum.1
    rw [← Except.ok.inj h2] at hi
    exact ⟨hp, hi⟩
  unfold locate
  rw [if_neg (by omega), bind_eq_ok]
  rcases bracket_eq_ok r key aim hslots hprobe hpos
    (show x.node.index.slots.size - 1 < _ by omega) (Or.inl rfl) with
    ⟨a, ha, hb, e⟩ | ⟨i, hi, hb, e⟩
  · refine ⟨_, e, ?_⟩
    rw [h.among_eq_of_equal ho hx hq (hsub.subset ha) hb]
    rfl
  · -- the chain is followed from one slot before, which is below the key like the slot itself
    refine ⟨_, e, ?_⟩
    have hi' : i - 1 < owners.length := by omega
    have hlt : owners[i - 1].compareKey key = .lt := by
      by_cases h1 : i - 1 = 0
      · simp only [h1]
        exact Record.compareKey_of_isInfimum hinf key
      · have hp := List.pairwise_iff_getElem.mp
          ((h.pairwise_below ho hx hq.known hq.length).sublist hsub)
        exact hp (i - 1) i hi' hi (by omega) (hb.resolve_left (by omega))
    have hmem := hsub.subset (List.getElem_mem hi')
    obtain ⟨l, hsuf, hamong⟩ := h.among_eq_of_below ho hx hq hmem hlt
    simp only [slotAt_eq_ok hslots hi', hprobe _ (List.getElem_mem hi'), bind, Except.bind]
    rw [hamong]
    refine scan_eq_ok (fun b hb => h.probed b (hsuf.subset (by simp at hb ⊢; tauto)))
      (h.linked.suffix hsuf) h.supremum.1 ?_
    have hlen := hsuf.length_le
    have hcount := h.count
    simp only [Listing.chain, List.length_cons, List.length_append] at hlen
    unfold IndexPage.maxSteps
    omega

end Reader.ListsKeys
end Tablespace
