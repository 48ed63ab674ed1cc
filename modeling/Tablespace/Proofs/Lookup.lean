import Tablespace.Proofs.Tree

/-! # Searches in a tree

A search *passes* the keys below the one it is for, and that one itself if it is to end at it. On
each page it goes down to the last child whose node pointer it passes, or to the first child of all.
So it comes to a leaf with all rows on the left below its key and none on the right that it passes.

* `Aim.Passes`: the keys that a search passes.
* `Reader.ListsKeys.exists_place`: where a key falls on a page.
* `Reader.Lands`: a search comes to a leaf. `Reader.Subtree.exists_lands`: every search does, and
  `Reader.Subtree.exists_lands_le`: one that passes less does not come to a leaf further right.
* `Reader.exists_get`: a lookup finds the shown row of its key. -/

namespace Tablespace

/-- **The keys that a search passes**, none if it is for no key. -/
def Aim.Passes (aim : Aim) (key : Option Key) (k : Key) : Prop :=
  ∃ t, key = some t ∧ (compareKeys k t = .lt ∨ compareKeys k t = .eq ∧ aim = .equal)

namespace Aim
variable {aim : Aim} {k t : Key}

theorem not_passes_none : ¬ aim.Passes none k := fun ⟨_, e, _⟩ => nomatch e

theorem passes_some :
    aim.Passes (some t) k ↔ compareKeys k t = .lt ∨ compareKeys k t = .eq ∧ aim = .equal := by
  constructor
  · rintro ⟨_, ⟨⟩, h⟩
    exact h
  · intro h
    exact ⟨t, rfl, h⟩

/-- A record on the near side of which a search goes on is not passed. -/
theorem not_passes_of_isBelow? {a : Record} (hu : a.isUser) (h : aim.isBelow? a t = some false) :
    ¬ aim.Passes (some t) a.key := by
  rw [passes_some, ← Record.compareKey_of_isUser hu]
  rintro (e | e)
  · rw [isBelow?_eq_true.mpr e] at h
    cases h
  · rw [isBelow?_eq_none.mpr e] at h
    cases h

end Aim

namespace Reader
variable {r : Reader} {K : Key → Prop} {aim : Aim} {key : Option Key}

/-- A key below one that is passed is below the key of the search. -/
theorem lt_of_passes {t a b : Key} (ho : Key.OrderedOn K) (hq : r.Seeks K t aim) (ha : K a)
    (hb : K b) (hbl : b.length = r.keyLength) (hab : compareKeys a b = .lt)
    (hp : aim.Passes (some t) b) : compareKeys a t = .lt := by
  have h := Aim.passes_some.mp hp
  refine compareKeys_of_lt_of_le ho ha hb hq.known hab (h.imp_right fun ⟨heq, haim⟩ => ⟨heq, ?_⟩)
  rw [hbl, hq.whole haim]

/-- A search passes what is not above a key that it passes. -/
theorem passes_of_isLE {a b : Key} (ho : Key.OrderedOn K)
    (hq : ∀ t, key = some t → r.Seeks K t aim) (ha : K a) (hb : K b)
    (hal : a.length = r.keyLength) (hbl : b.length = r.keyLength)
    (hab : compareKeys b a ≠ .lt) (hp : aim.Passes key b) : aim.Passes key a := by
  obtain ⟨t, rfl, h⟩ := hp
  have hq := hq t rfl
  refine ⟨t, rfl, ?_⟩
  rcases h with h | ⟨heq, haim⟩
  · have hle := (compareKeys_ne_lt_iff ho hb ha).mp hab
    exact Or.inl (compareKeys_of_le_of_lt ho ha hb hq.known (by rw [hal]; exact hq.length)
      (by rw [hbl]; exact hq.length) hle h)
  · -- if `t` were below `a`, it would be below `b`
    have hnot : compareKeys t a ≠ .lt := fun hta => by
      have hlt := compareKeys_of_lt_of_not_lt ho hq.known ha hb (by rw [hal, hbl]) hta hab
      rw [compareKeys_swap ho hb hq.known, heq] at hlt
      cases hlt
    have hle := (compareKeys_ne_lt_iff ho hq.known ha).mp hnot
    cases e : compareKeys a t with
    | lt => exact Or.inl rfl
    | eq => exact Or.inr ⟨rfl, haim⟩
    | gt => rw [e] at hle; cases hle

end Reader

/-! ### On a page -/

theorem Place.exists_among (aim : Aim) (key : Key) (last prev : Record) (l : List Record) :
    ∃ P Q, l = P ++ Q ∧ (∀ a ∈ P, a.compareKey key = .lt) ∧
      ((∃ a Q', Q = a :: Q' ∧ aim.isBelow? a key = none ∧
          among aim key last prev l = .at a.keyPart) ∨
        (∀ a ∈ Q.head?, aim.isBelow? a key = some false) ∧ among aim key last prev l =
          .between (P.getLastD prev).keyPart (Q.headD last).keyPart) := by
  induction l generalizing prev with
  | nil => exact ⟨[], [], rfl, by simp, Or.inr ⟨by simp, rfl⟩⟩
  | cons a l ih =>
    rw [among]
    cases hb : aim.isBelow? a key with
    | none => exact ⟨[], a :: l, rfl, by simp, Or.inl ⟨a, l, rfl, hb, rfl⟩⟩
    | some b =>
      cases b with
      | false => exact ⟨[], a :: l, rfl, by simp, Or.inr ⟨by simpa using hb, rfl⟩⟩
      | true =>
        obtain ⟨P, Q, rfl, hP, h⟩ := ih a
        refine ⟨a :: P, Q, rfl, ?_, ?_⟩
        · rintro b (_ | ⟨_, hb'⟩)
          · exact Aim.isBelow?_eq_true.mp hb
          · exact hP b hb'
        · rw [List.getLastD_cons]
          exact h

/-- **Where a key falls on a page**: past the records `P` below it, at a record that is equal to it
or between two records, and none of those that follow is passed. -/
theorem Reader.ListsKeys.exists_place {r : Reader} {x : Listing} {K : Key → Prop} {aim : Aim}
    {key : Key} (h : r.ListsKeys x) (hs : x.Slotted)
    (hfirst : x.node.index.slots[0]? = some IndexPage.infimum) (ho : Key.OrderedOn K)
    (hx : ∀ a ∈ x.records, K a.key) (hq : r.Seeks K key aim) :
    ∃ P Q, x.records = P ++ Q ∧ (∀ a ∈ P, compareKeys a.key key = .lt) ∧
      ((∃ a Q', Q = a :: Q' ∧ compareKeys a.key key = .eq ∧ aim = .equal ∧
          r.locate x.node key aim = .ok (.at a.keyPart) ∧
          ∀ b ∈ Q', ¬ aim.Passes (some key) b.key) ∨
        r.locate x.node key aim =
            .ok (.between (P.getLastD x.infimum).keyPart (Q.headD x.supremum).keyPart) ∧
          ∀ b ∈ Q, ¬ aim.Passes (some key) b.key) := by
  rw [h.locate_eq_ok hs hfirst ho hx hq]
  obtain ⟨P, Q, e, hP, hQ⟩ := Place.exists_among aim key x.supremum x.infimum x.records
  have hasc := h.ascending
  have hmem : ∀ {a}, a ∈ P ++ Q → a ∈ x.records := fun ha => e ▸ ha
  rw [e, List.pairwise_append] at hasc
  refine ⟨P, Q, e, fun a ha => ?_, ?_⟩
  · rw [← h.compareKey_eq (hmem (by simp [ha]))]
    exact hP a ha
  rcases hQ with ⟨a, Q', rfl, hb, hplace⟩ | ⟨hhead, hplace⟩
  · -- what follows a record that is equal to the key is above it
    obtain ⟨heq, haim⟩ := Aim.isBelow?_eq_none.mp hb
    have ha := hmem (a := a) (by simp)
    rw [h.compareKey_eq ha] at heq
    refine Or.inl ⟨a, Q', rfl, heq, haim, by rw [hplace], fun b hb hp => ?_⟩
    have hb' := hmem (a := b) (by simp [hb])
    have hlt := lt_of_passes ho hq (hx a ha) (hx b hb') (h.length_key hb')
      (List.rel_of_pairwise_cons hasc.2.1 hb) hp
    rw [heq] at hlt
    cases hlt
  · refine Or.inr ⟨by rw [hplace], fun b hb hp => ?_⟩
    cases Q with
    | nil => cases hb
    | cons a Q =>
      have ha := hmem (a := a) (by simp)
      have hnot := Aim.not_passes_of_isBelow? (h.user a ha) (hhead a rfl)
      rcases List.mem_cons.mp hb with rfl | hb
      · exact hnot hp
      · have hb' := hmem (a := b) (by simp [hb])
        have hab := List.rel_of_pairwise_cons hasc.2.1 hb
        refine hnot (passes_of_isLE ho (by rintro t ⟨⟩; exact hq) (hx a ha) (hx b hb')
          (h.length_key ha) (h.length_key hb') ?_ hp)
        rw [compareKeys_swap ho (hx a ha) (hx b hb'), hab]
        nofun

namespace Reader.Lists
variable {r : Reader} {x : Listing} {K : Key → Prop} {aim : Aim} {key : Key}

theorem firstChild_eq_ok (h : r.Lists x) {a : Record} {Q : List Record} (e : x.records = a :: Q)
    {child : Nat} (ha : a.child = some child) : r.firstChild x.node = .ok child := by
  have hinf := h.probe_eq_ok (a := x.infimum) (by simp [Listing.chain])
  have hnext : x.infimum.nextOrigin? = some a.origin := by
    have hl := h.linked
    rw [Listing.chain, e, List.cons_append, List.isChain_cons_cons] at hl
    exact hl.1
  rw [h.infimum.2] at hinf
  unfold firstChild
  rw [bind_eq_ok]
  refine ⟨_, hinf, ?_⟩
  rw [Record.nextOrigin?_keyPart, hnext]
  simp only [bind_eq_ok]
  refine ⟨_, h.probe_eq_ok (mem_chain (a := a) (by simp [e])), ?_⟩
  have hi : x.infimum.keyPart.isInfimum := h.infimum.1
  have hc : a.keyPart.child = some child := ha
  simp [Place.child, hi, hc]

/-- **The child that a search goes down to** is that of the last node pointer that it passes, or the
first of all. -/
theorem exists_childFor {key : Option Key} (h : r.Lists x) (hs : x.Slotted)
    (hfirst : x.node.index.slots[0]? = some IndexPage.infimum) (ho : Key.OrderedOn K)
    (hx : ∀ a ∈ x.records, K a.key) (hq : ∀ t, key = some t → r.Seeks K t aim)
    (hne : x.records ≠ []) (hchild : ∀ a ∈ x.records, ∃ child, a.child = some child) :
    ∃ P a Q child, x.records = P ++ a :: Q ∧ a.child = some child ∧
      r.childFor x.node key aim = .ok child ∧ (P ≠ [] → aim.Passes key a.key) ∧
      ∀ b ∈ Q, ¬ aim.Passes key b.key := by
  cases key with
  | none =>
    obtain ⟨a, Q, e⟩ := List.exists_cons_of_ne_nil hne
    obtain ⟨child, hc⟩ := hchild a (by simp [e])
    exact ⟨[], a, Q, child, e, hc, h.firstChild_eq_ok e hc, by simp,
      fun _ _ => Aim.not_passes_none⟩
  | some t =>
    obtain ⟨P, Q, e, hP, hQ⟩ := h.listsKeys.exists_place hs hfirst ho hx (hq t rfl)
    rw [childFor]
    rcases hQ with ⟨a, Q, rfl, heq, haim, hl, hQ⟩ | ⟨hl, hQ⟩
    · obtain ⟨child, hc⟩ := hchild a (by simp [e])
      have hc' : a.keyPart.child = some child := hc
      refine ⟨P, a, Q, child, e, hc, bind_eq_ok.mpr ⟨_, hl, by simp [Place.child, hc']⟩, ?_, hQ⟩
      exact fun _ => Aim.passes_some.mpr (Or.inr ⟨heq, haim⟩)
    rcases List.eq_nil_or_concat P with rfl | ⟨P, a, rfl⟩
    · -- all node pointers are above the key
      rw [List.nil_append] at e
      obtain ⟨a, Q, rfl⟩ := List.exists_cons_of_ne_nil (e ▸ hne)
      obtain ⟨child, hc⟩ := hchild a (by simp [e])
      have hi : x.infimum.keyPart.isInfimum := h.infimum.1
      have hc' : a.keyPart.child = some child := hc
      refine ⟨[], a, Q, child, e, hc, bind_eq_ok.mpr ⟨_, hl, by simp [Place.child, hi, hc']⟩,
        by simp, fun b hb => hQ b (by simp [hb])⟩
    · have ha : a ∈ x.records := by simp [e]
      obtain ⟨child, hc⟩ := hchild a ha
      have hi : a.keyPart.isInfimum = false := Record.not_isInfimum_of_isUser (h.user a ha)
      have hc' : a.keyPart.child = some child := hc
      refine ⟨P, a, Q, child, by simp [e], hc,
        bind_eq_ok.mpr ⟨_, hl, by simp [Place.child, hi, hc']⟩, fun _ => ?_, hQ⟩
      exact Aim.passes_some.mpr (Or.inl (hP a (by simp)))

end Reader.Lists

/-! ### From page to page -/

namespace Reader

/-- **A search goes down from a page** to the pages below the node pointer `b`, past those below `P`
and not as far as those below `Q`. -/
structure Picks (r : Reader) (key : Option Key) (aim : Aim) (x : Listing)
    (below P : List (Record × List Listing)) (b : Record × List Listing)
    (Q : List (Record × List Listing)) : Prop where
  split : below = P ++ b :: Q
  found : ∃ child, b.1.child = some child ∧ r.childFor x.node key aim = .ok child
  passes : P ≠ [] → aim.Passes key b.1.key
  stops : ∀ q ∈ Q, ¬ aim.Passes key q.1.key

theorem Picks.mem {r : Reader} {key : Option Key} {aim : Aim} {x : Listing}
    {below P : List (Record × List Listing)} {b : Record × List Listing}
    {Q : List (Record × List Listing)} (h : r.Picks key aim x below P b Q) : b ∈ below := by
  rw [h.split]
  simp

/-- Where two searches go down from a page, one of which passes less. -/
theorem Picks.eq_or_further {r : Reader} {key key' : Option Key} {aim aim' : Aim} {x : Listing}
    {below P P' : List (Record × List Listing)} {b b' : Record × List Listing}
    {Q Q' : List (Record × List Listing)} (h : r.Picks key aim x below P b Q)
    (h' : r.Picks key' aim' x below P' b' Q')
    (hle : aim.Passes key b.1.key → aim'.Passes key' b.1.key) :
    P = P' ∧ b = b' ∧ Q = Q' ∨ ∃ M, P' = P ++ b :: M := by
  rcases List.append_eq_append_iff.mp (h.split.symm.trans h'.split) with ⟨M, hP, hQ⟩ | ⟨M, hP, hQ⟩
  · cases M with
    | nil =>
      rw [List.append_nil] at hP
      cases hQ
      exact Or.inl ⟨hP.symm, rfl, rfl⟩
    | cons c M =>
      cases hQ
      exact Or.inr ⟨M, hP⟩
  · cases M with
    | nil =>
      rw [List.append_nil] at hP
      cases hQ
      exact Or.inl ⟨hP, rfl, rfl⟩
    | cons c M =>
      -- the pointer of the first search would be one at which the second stops
      cases hQ
      have hpass := h.passes (by simp [hP])
      exact absurd (hle hpass) (h'.stops b (by simp))

/-- **A search comes to a leaf**: all rows on the leaves `A` to its left are below the key, and
those on the leaves `B` to its right are not passed. -/
structure Lands (r : Reader) (key : Option Key) (aim : Aim) (level page : Nat)
    (xs A : List Listing) (x : Listing) (B : List Listing) : Prop where
  leaves : leavesOf xs = A ++ x :: B
  found : ∃ n, r.node page = .ok n ∧ n.index.level = level ∧
    r.descendFrom key aim level n = .ok x.node
  before : ∀ row ∈ A.flatMap Listing.records, Aim.before.Passes key row.key
  after : ∀ row ∈ B.flatMap Listing.records, ¬ aim.Passes key row.key

namespace Branches
variable {r : Reader} {level page : Nat} {x : Listing} {below : List (Record × List Listing)}
variable {K : Key → Prop} {key : Option Key} {aim : Aim}

theorem exists_picks (h : r.Branches level page x below) (hs : x.Slotted) (ho : Key.OrderedOn K)
    (hK : ∀ k, HasKey (x :: below.flatMap Prod.snd) k → K k)
    (hq : ∀ t, key = some t → r.Seeks K t aim) : ∃ P b Q, r.Picks key aim x below P b Q := by
  have hx : ∀ a ∈ x.records, K a.key := fun a ha => hK _ ⟨x, by simp, a, ha, rfl⟩
  have hne : x.records ≠ [] := by simpa [h.pointers] using h.ne_nil
  obtain ⟨P, a, Q, child, e, hc, hfound, hpass, hstop⟩ :=
    h.lists.exists_childFor hs (Reader.node_eq_ok h.node).2.2.2 ho hx hq hne fun a ha =>
      h.exists_child ha
  rw [h.pointers] at e
  obtain ⟨P', rest, rfl, rfl, hrest⟩ := List.map_eq_append_iff.mp e
  obtain ⟨b, Q', rfl, rfl, rfl⟩ := List.map_eq_cons_iff.mp hrest
  exact ⟨P', b, Q', rfl, ⟨child, hc, hfound⟩, fun h => hpass (by simpa using h),
    fun q hq' => hstop q.1 (List.mem_map_of_mem hq')⟩

/-- A search that goes down to a child comes to the leaf that it comes to from there. -/
theorem lands (h : r.Branches level page x below) (ho : Key.OrderedOn K)
    (hK : ∀ k, HasKey (x :: below.flatMap Prod.snd) k → K k)
    (hq : ∀ t, key = some t → r.Seeks K t aim) {P Q : List (Record × List Listing)}
    {b : Record × List Listing} (hb : r.Picks key aim x below P b Q) {A B : List Listing}
    {y : Listing} {child : Nat} (hchild : b.1.child = some child)
    (hland : r.Lands key aim level child b.2 A y B) :
    r.Lands key aim (level + 1) page (x :: below.flatMap Prod.snd)
      (leavesOf (P.flatMap Prod.snd) ++ A) y (B ++ leavesOf (Q.flatMap Prod.snd)) := by
  obtain ⟨_, e, hfound⟩ := hb.found
  cases hchild.symm.trans e
  have hpair := h.pairwise_apart ho hK
  rw [hb.split, List.pairwise_append] at hpair
  have hmem : ∀ {c}, c ∈ P ++ b :: Q → c ∈ below := fun hc => hb.split ▸ hc
  have hrow : ∀ {c}, c ∈ P ++ b :: Q → ∀ row ∈ rowsOf c.2,
      K row.key ∧ row.key.length = r.keyLength := fun hcm row hr => by
    obtain ⟨_, -, hsub⟩ := h.exists_below (hmem hcm)
    exact ⟨hK _ (hasKey_row (hmem hcm) hr), hsub.length_key hr⟩
  have hptr : ∀ {c}, c ∈ P ++ b :: Q → K c.1.key ∧ c.1.key.length = r.keyLength := fun hcm =>
    ⟨hK _ (h.hasKey_pointer (hmem hcm)), h.length_pointer (hmem hcm)⟩
  constructor
  · rw [leavesOf_cons h.level_eq, hb.split, List.flatMap_append, List.flatMap_cons, leavesOf,
      List.filter_append, List.filter_append, ← leavesOf, ← leavesOf, ← leavesOf, hland.leaves]
    simp
  · obtain ⟨n, hn, hnl, hdesc⟩ := hland.found
    refine ⟨x.node, h.node, h.level_eq, ?_⟩
    rw [descendFrom, bind_eq_ok]
    exact ⟨child, hfound, bind_eq_ok.mpr ⟨n, childNode_eq_ok hn hnl, hdesc⟩⟩
  · -- on the left, a row is below the pointer `b` or stands left of the leaf below `b`
    intro row hr
    rw [List.flatMap_append, List.mem_append] at hr
    rcases hr with hr | hr
    · obtain ⟨p, hpP, hr⟩ := mem_rowsOf_flatMap.mp hr
      obtain ⟨t, rfl, -⟩ := hb.passes (List.ne_nil_of_mem hpP)
      have hlt := (hpair.2.2 p hpP b (by simp)).1 row hr
      obtain ⟨hbK, hbl⟩ := hptr (c := b) (by simp)
      refine Aim.passes_some.mpr (Or.inl ?_)
      exact lt_of_passes ho (hq t rfl) (hrow (by simp [hpP]) row hr).1 hbK hbl hlt
        (hb.passes (List.ne_nil_of_mem hpP))
    · exact hland.before row hr
  · -- on the right, it stands right of the leaf below `b` or is not below a pointer in `Q`
    intro row hr
    rw [List.flatMap_append, List.mem_append] at hr
    rcases hr with hr | hr
    · exact hland.after row hr
    · obtain ⟨q, hqQ, hr⟩ := mem_rowsOf_flatMap.mp hr
      have hge := (List.rel_of_pairwise_cons hpair.2.1 hqQ).2 row hr
      obtain ⟨hqK, hql⟩ := hptr (c := q) (by simp [hqQ])
      obtain ⟨hrK, hrl⟩ := hrow (c := q) (by simp [hqQ]) row hr
      exact fun hpass => hb.stops q hqQ (passes_of_isLE ho hq hqK hrK hql hrl hge hpass)

end Branches

namespace Subtree
variable {r : Reader} {level page : Nat} {x : Listing}
variable {K : Key → Prop} {key : Option Key} {aim : Aim}

theorem lands_of_leaf (node : r.node page = .ok x.node) (hlevel : x.node.index.level = 0) :
    r.Lands key aim 0 page [x] [] x [] := by
  refine ⟨?_, ⟨x.node, node, hlevel, rfl⟩, by simp, by simp⟩
  simp [leavesOf, IndexPage.isLeaf, hlevel]

/-- **Every search comes to a leaf.** -/
theorem exists_lands {xs : List Listing} (h : r.Subtree level page xs) (hs : ∀ x ∈ xs, x.Slotted)
    (ho : Key.OrderedOn K) (hK : ∀ k, HasKey xs k → K k)
    (hq : ∀ t, key = some t → r.Seeks K t aim) : ∃ A x B, r.Lands key aim level page xs A x B := by
  induction h with
  | leaf node hlevel _ => exact ⟨_, _, _, lands_of_leaf node hlevel⟩
  | branch node hlevel hl hp hne ha hc ih =>
    have hbr : r.Branches _ _ _ _ := ⟨node, hlevel, hl, hp, hne, ha, hc⟩
    obtain ⟨P, b, Q, hb⟩ := hbr.exists_picks (hs _ (by simp)) ho hK hq
    obtain ⟨child, hchild, -⟩ := hb.found
    obtain ⟨A, y, B, hland⟩ := ih b hb.mem child hchild
      (fun x hx => hs x (subset_branch hb.mem hx)) fun k hk => hK k (hk.mono (subset_branch hb.mem))
    exact ⟨_, _, _, hbr.lands ho hK hq hb hchild hland⟩

/-- **A search that passes less does not come to a leaf further right.** -/
theorem exists_lands_le {xs : List Listing} (h : r.Subtree level page xs)
    (hs : ∀ x ∈ xs, x.Slotted) (ho : Key.OrderedOn K) (hK : ∀ k, HasKey xs k → K k)
    (hq : ∀ t, key = some t → r.Seeks K t aim) {key' : Option Key} {aim' : Aim}
    (hq' : ∀ t, key' = some t → r.Seeks K t aim')
    (hle : ∀ k, K k → k.length = r.keyLength → aim.Passes key k → aim'.Passes key' k) :
    ∃ A x B A' x' B', r.Lands key aim level page xs A x B ∧
      r.Lands key' aim' level page xs A' x' B' ∧ A.length ≤ A'.length := by
  induction h with
  | leaf node hlevel _ =>
    exact ⟨_, _, _, _, _, _, lands_of_leaf node hlevel, lands_of_leaf node hlevel, le_rfl⟩
  | @branch _ _ x below node hlevel hl hp hne ha hc ih =>
    have hbr : r.Branches _ _ x below := ⟨node, hlevel, hl, hp, hne, ha, hc⟩
    obtain ⟨P, b, Q, hb⟩ := hbr.exists_picks (hs _ (by simp)) ho hK hq
    obtain ⟨P', b', Q', hb'⟩ := hbr.exists_picks (hs _ (by simp)) ho hK hq'
    obtain ⟨child, hchild, -⟩ := hb.found
    obtain ⟨child', hchild', -⟩ := hb'.found
    have hs' : ∀ c ∈ below, ∀ x ∈ c.2, x.Slotted := fun c hc x hx => hs x (subset_branch hc hx)
    have hK' : ∀ c ∈ below, ∀ k, HasKey c.2 k → K k := fun c hc k hk =>
      hK k (hk.mono (subset_branch hc))
    have hless : aim.Passes key b.1.key → aim'.Passes key' b.1.key :=
      hle _ (hK _ (hbr.hasKey_pointer hb.mem)) (hbr.length_pointer hb.mem)
    rcases hb.eq_or_further hb' hless with ⟨rfl, rfl, rfl⟩ | ⟨M, rfl⟩
    · -- both go down to the same child
      obtain ⟨A, y, B, A', y', B', hland, hland', hlen⟩ :=
        ih b hb.mem child hchild (hs' b hb.mem) (hK' b hb.mem)
      refine ⟨_, _, _, _, _, _, hbr.lands ho hK hq hb hchild hland,
        hbr.lands ho hK hq' hb' hchild hland', ?_⟩
      simp only [List.length_append]
      omega
    · -- the leaf of the first search lies below `b`, and all of those are left of the second
      obtain ⟨A, y, B, hland⟩ :=
        exists_lands (hc b hb.mem child hchild) (hs' b hb.mem) ho (hK' b hb.mem) hq
      obtain ⟨A', y', B', hland'⟩ :=
        exists_lands (hc b' hb'.mem child' hchild') (hs' b' hb'.mem) ho (hK' b' hb'.mem) hq'
      refine ⟨_, _, _, _, _, _, hbr.lands ho hK hq hb hchild hland,
        hbr.lands ho hK hq' hb' hchild' hland', ?_⟩
      have hb2 : (leavesOf b.2).length = A.length + 1 + B.length := by
        rw [hland.leaves, List.length_append, List.length_cons]
        omega
      rw [leavesOf_flatMap, leavesOf_flatMap, List.flatMap_append, List.flatMap_cons]
      simp only [List.length_append]
      omega

end Subtree

/-! ### Lookups -/

variable {r : Reader} {xs : List Listing} {key : Option Key} {aim : Aim}

theorem Lands.descend_eq_ok {level : Nat} {A B : List Listing} {x : Listing}
    (h : r.Lands key aim level r.root xs A x B) : r.descend key aim = .ok x.node := by
  obtain ⟨n, hn, hl, hdesc⟩ := h.found
  unfold descend
  rw [bind_eq_ok]
  exact ⟨n, hn, by rw [hl]; exact hdesc⟩

theorem Lands.mem_leavesOf {level page : Nat} {A B : List Listing} {x : Listing}
    (h : r.Lands key aim level page xs A x B) : x ∈ xs ∧ x.node.index.isLeaf := by
  have hx : x ∈ leavesOf xs := by
    rw [h.leaves]
    simp
  exact List.mem_filter.mp hx

theorem Lands.mem_records {level page : Nat} {A B : List Listing} {x : Listing} {t : Key}
    (h : r.Lands (some t) .equal level page xs A x B) {a : Record} (ha : a ∈ rowsOf xs)
    (heq : compareKeys a.key t = .eq) : a ∈ x.records := by
  unfold rowsOf at ha
  rw [h.leaves, List.flatMap_append, List.flatMap_cons, List.mem_append, List.mem_append] at ha
  rcases ha with ha | ha | ha
  · rcases Aim.passes_some.mp (h.before a ha) with e | ⟨-, e⟩
    · rw [heq] at e
      cases e
    · cases e
  · exact ha
  · exact absurd (Aim.passes_some.mpr (Or.inr ⟨heq, rfl⟩)) (h.after a ha)

section
variable {t : Key} {x : Listing} (hkey : t.length = r.keyLength)
  (hd : r.descend (some t) .equal = .ok x.node)
include hkey hd

theorem get_of_locate_at {a : Record} (hl : r.Lists x) (hleaf : x.node.index.isLeaf)
    (ha : a ∈ x.records) (hlocate : r.locate x.node t .equal = .ok (.at a.keyPart)) :
    r.get t = .ok (if r.isVisible a then some a else none) := by
  have hfull := hl.decoded a (Lists.mem_chain ha)
  unfold decodeAt scanDepth at hfull
  rw [hleaf, if_pos rfl] at hfull
  unfold get
  rw [if_neg (by simp [hkey]), bind_eq_ok]
  refine ⟨x.node, hd, bind_eq_ok.mpr ⟨_, hlocate, ?_⟩⟩
  show (if r.isVisible a then some <$> r.codec.read r.source x.node.page true .full a.origin
    else .ok none) = _
  rw [hfull]
  split <;> rfl

theorem get_of_locate_between {a b : Record}
    (hlocate : r.locate x.node t .equal = .ok (.between a b)) : r.get t = .ok none := by
  unfold get
  rw [if_neg (by simp [hkey]), bind_eq_ok]
  exact ⟨x.node, hd, bind_eq_ok.mpr ⟨_, hlocate, rfl⟩⟩

end

/-- A lookup finds the one row that is equal to its key, or nothing if there is none. -/
theorem WellFormed.get_cases (h : r.WellFormed xs) {K : Key → Prop} (ho : Key.OrderedOn K)
    (hK : ∀ k, HasKey xs k → K k) {t : Key} (ht : K t) (hkey : t.length = r.keyLength) :
    (∃ a ∈ rowsOf xs, compareKeys a.key t = .eq ∧
        r.get t = .ok (if r.isVisible a then some a else none) ∧
        ∀ b ∈ rowsOf xs, compareKeys b.key t = .eq → b = a) ∨
      (∀ b ∈ rowsOf xs, compareKeys b.key t ≠ .eq) ∧ r.get t = .ok none := by
  obtain ⟨level, htree⟩ := h.tree
  have hq : r.Seeks K t .equal := ⟨ht, hkey.le, fun _ => hkey⟩
  obtain ⟨A, x, B, hland⟩ := htree.exists_lands h.slotted ho hK
    (show ∀ k, some t = some k → r.Seeks K k .equal by rintro _ ⟨⟩; exact hq)
  obtain ⟨hx, hleaf⟩ := hland.mem_leavesOf
  have hl := htree.lists x hx
  obtain ⟨P, Q, e, hP, hQ⟩ := hl.listsKeys.exists_place (h.slotted x hx)
    (Reader.node_eq_ok (htree.node_eq_ok x hx)).2.2.2 ho
    (fun a ha => hK _ ⟨x, hx, a, ha, rfl⟩) hq
  have hbelow : ∀ b ∈ P, compareKeys b.key t ≠ .eq := fun b hb e => by
    rw [hP b hb] at e
    cases e
  have habove : ∀ b : Record, ¬ Aim.equal.Passes (some t) b.key → compareKeys b.key t ≠ .eq :=
    fun b hb e => hb (Aim.passes_some.mpr (Or.inr ⟨e, rfl⟩))
  rcases hQ with ⟨a, Q, rfl, heq, -, hlocate, hQ⟩ | ⟨hlocate, hQ⟩
  · have ha : a ∈ x.records := by simp [e]
    refine Or.inl ⟨a, List.mem_flatMap.mpr ⟨x, List.mem_filter.mpr ⟨hx, hleaf⟩, ha⟩, heq,
      get_of_locate_at hkey hland.descend_eq_ok hl hleaf ha hlocate, fun b hb hbeq => ?_⟩
    have hbx := hland.mem_records hb hbeq
    rw [e, List.mem_append, List.mem_cons] at hbx
    rcases hbx with hbP | rfl | hbQ
    · exact absurd hbeq (hbelow b hbP)
    · rfl
    · exact absurd hbeq (habove b (hQ b hbQ))
  · refine Or.inr ⟨fun b hb hbeq => ?_, get_of_locate_between hkey hland.descend_eq_ok hlocate⟩
    have hbx := hland.mem_records hb hbeq
    rw [e, List.mem_append] at hbx
    rcases hbx with hbP | hbQ
    · exact absurd hbeq (hbelow b hbP)
    · exact absurd hbeq (habove b (hQ b hbQ))

/-- **A lookup is exact**: it gives the shown row of a whole key, or nothing if there is none. -/
theorem exists_get (h : r.WellFormed xs) {key : Key} (hkey : key.length = r.keyLength)
    (ho : Key.OrderedOn fun k => HasKey xs k ∨ k = key) :
    ∃ o, r.get key = .ok o ∧
      ∀ a, o = some a ↔ a ∈ rowsOf xs ∧ r.isVisible a ∧ compareKeys a.key key = .eq := by
  rcases h.get_cases ho (fun _ => Or.inl) (Or.inr rfl) hkey with
    ⟨a, ha, heq, hget, hunique⟩ | ⟨hnone, hget⟩
  · refine ⟨_, hget, fun b => ?_⟩
    constructor
    · intro hb
      split at hb
      · next hv =>
        cases hb
        exact ⟨ha, hv, heq⟩
      · cases hb
    · rintro ⟨hb, hv, hbeq⟩
      rw [hunique b hb hbeq] at hv ⊢
      rw [if_pos hv]
  · refine ⟨none, hget, fun b => ?_⟩
    constructor
    · nofun
    · rintro ⟨hb, -, hbeq⟩
      exact absurd hbeq (hnone b hb)

/-- The lookup of a key below both node pointers of the tree of two leaves. -/
theorem exists_get_twoLeaves : TwoLeaves.reader.get [.int 1] = .ok TwoLeaves.left.records[0]? ∧
    ∃ o, TwoLeaves.reader.get [.int 1] = .ok o ∧
      ∀ a, o = some a ↔ a ∈ rowsOf [TwoLeaves.root, TwoLeaves.left, TwoLeaves.right] ∧
        TwoLeaves.reader.isVisible a ∧ compareKeys a.key [.int 1] = .eq := by
  refine ⟨by decide +kernel, exists_get TwoLeaves.wellFormed rfl ?_⟩
  refine TwoLeaves.orderedOn (K := fun k => k = [.int 1]) ?_
  rintro _ rfl v hv
  exact ⟨1, List.mem_singleton.mp hv⟩

end Reader
end Tablespace
