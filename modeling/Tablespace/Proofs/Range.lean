import Mathlib.Data.List.Perm.Subperm
import Tablespace.Proofs.Lookup
import Tablespace.Proofs.Walk
import Tablespace.Tree.Range

/-! # Range scans of a tree

A range scan tests the lower bound on its first leaf alone and the upper bound on its last. That is
enough, since the search for the lower bound leaves all rows below it on the left, the search for
the upper bound leaves none below it on the right, and the leaf of the first is not right of that
of the second.

* `Reader.Yields`: the records of a scan, one by one. `Reader.yields_of_drain`: they are those that
  are left of it.
* `Reader.sweep`: what a scan takes from leaves in a row. `Reader.drain_eq_done`: a scan takes that
  from linked leaves.
* `Reader.exists_range`: a range scan yields the records of the full scan that lie in the range. -/

namespace Tablespace

/-- **A key in a range**: not below the lower bound and below the upper, where they are given. -/
def Key.InRange (lower upper : Option Key) (k : Key) : Prop :=
  (∀ lo ∈ lower, compareKeys k lo ≠ .lt) ∧ ∀ hi ∈ upper, compareKeys k hi = .lt

instance (lower upper : Option Key) (k : Key) : Decidable (Key.InRange lower upper k) :=
  inferInstanceAs (Decidable (_ ∧ _))

/-! ### Bounds -/

namespace Scan
variable {row : Record} {bound : Option Key}

theorem reaches_iff (hu : row.isUser) :
    reaches bound row ↔ ∀ t ∈ bound, compareKeys row.key t ≠ .lt := by
  cases bound with
  | none => simp [reaches]
  | some t => simp [reaches, Record.compareKey_of_isUser hu]

theorem staysBelow_iff (hu : row.isUser) :
    staysBelow bound row ↔ ∀ t ∈ bound, compareKeys row.key t = .lt := by
  cases bound with
  | none => simp [staysBelow]
  | some t => simp [staysBelow, Record.compareKey_of_isUser hu]

theorem inRange_iff (hu : row.isUser) {lower upper : Option Key} :
    Key.InRange lower upper row.key ↔ reaches lower row ∧ staysBelow upper row := by
  rw [reaches_iff hu, staysBelow_iff hu, Key.InRange]

end Scan

/-- What passes a test that holds up to some place of a list is what stands before that place. -/
theorem takeWhile_eq_filter {p : α → Bool} {l : List α} (h : l.Pairwise fun a b => p b → p a) :
    l.takeWhile p = l.filter p := by
  induction l with
  | nil => rfl
  | cons a l ih =>
    rw [List.pairwise_cons] at h
    by_cases ha : p a
    · rw [List.takeWhile_cons_of_pos ha, List.filter_cons_of_pos ha, ih h.2]
    · rw [List.takeWhile_cons_of_neg ha, List.filter_cons_of_neg ha]
      exact (List.filter_eq_nil_iff.mpr fun b hb hp => ha (h.1 b hb hp)).symm

theorem Run.prepend_eq_done {run : Run ε α} {rows l : List α} :
    run.prepend rows = .done l ↔ ∃ l', run = .done l' ∧ rows ++ l' = l := by
  obtain ⟨rows', failure⟩ := run
  simp only [prepend, done, mk.injEq]
  constructor
  · rintro ⟨rfl, rfl⟩
    exact ⟨rows', ⟨rfl, rfl⟩, rfl⟩
  · rintro ⟨_, ⟨rfl, rfl⟩, rfl⟩
    exact ⟨rfl, rfl⟩

namespace Reader

/-! ### One record after the other -/

/-- **What a scan yields**: its records one by one, until there is none. -/
inductive Yields (r : Reader) : Scan → List Record → Prop
  | nil {s s' : Scan} (h : r.next s = (none, s')) : Yields r s []
  | cons {s s' : Scan} {a : Record} {l : List Record} (h : r.next s = (some (.ok a), s'))
      (hl : Yields r s' l) : Yields r s (a :: l)

variable {r : Reader} {s s' : Scan} {l : List Record}

theorem Yields.buffer (h : r.Yields { s with buffer := [] } l) : r.Yields s (s.buffer ++ l) := by
  obtain ⟨lower, upper, nextPage, endPage, first, buffer, visited⟩ := s
  induction buffer with
  | nil => exact h
  | cons a buffer ih =>
    refine .cons ?_ (ih h)
    rw [next]

theorem Yields.of_fill {page : Nat} (hb : s.buffer = []) (hn : s.nextPage = some page)
    (hf : r.fill s page = .ok s') (h : r.Yields s' l) : r.Yields s l := by
  have hnext : r.next s = r.next s' := by
    rw [next, hb]
    simp only [hn]
    split
    · next e he => rw [hf] at he; cases he
    · next t ht => rw [hf] at ht; cases ht; rfl
  cases h with
  | nil h => exact .nil (hnext.trans h)
  | cons h hl => exact .cons (hnext.trans h) hl

/-- **A scan yields what is left of it.** -/
theorem yields_of_drain (h : r.drain s = .done l) : r.Yields s l := by
  induction hd : r.pageCount - s.visited using Nat.strongRecOn generalizing s l with
  | ind d ih =>
    rw [drain] at h
    split at h
    · next hn =>
      cases h
      have hnil : r.Yields { s with buffer := [] } [] := by
        refine .nil (show r.next { s with buffer := [] } = (none, { s with buffer := [] }) from ?_)
        rw [next]
        simp only [hn]
      simpa using hnil.buffer
    · next page hn =>
      split at h
      · cases h
      · next s' hf =>
        have hv := visited_of_fill hf
        obtain ⟨l', hl', rfl⟩ := Run.prepend_eq_done.mp h
        have hrest : r.Yields { s with buffer := [] } l' :=
          .of_fill rfl hn hf (ih _ (by simp only at hv; omega) hl' rfl)
        exact hrest.buffer

/-! ### Along the leaves -/

/-- What a scan takes from a leaf. -/
def shownOf (r : Reader) (lower upper : Option Key) (stop : Option Nat) (first : Bool)
    (x : Listing) : List Record :=
  let shown := x.records.filter r.isVisible
  let above := if first then shown.filter (Scan.reaches lower) else shown
  if stop = some x.node.index.number then above.takeWhile (Scan.staysBelow upper) else above

/-- **What a scan takes from leaves in a row**, from the first of them to the one where it stops. -/
def sweep (r : Reader) (lower upper : Option Key) (stop : Option Nat) : Bool → List Listing →
    List Record
  | _, [] => []
  | first, x :: l => r.shownOf lower upper stop first x ++
    if stop = some x.node.index.number then [] else r.sweep lower upper stop false l

theorem sweep_of_eq {lower upper : Option Key} {stop : Option Nat} {first : Bool} {x : Listing}
    {l : List Listing} (h : stop = some x.node.index.number) :
    r.sweep lower upper stop first (x :: l) = r.shownOf lower upper stop first x := by
  rw [sweep, if_pos h, List.append_nil]

theorem sweep_of_ne {lower upper : Option Key} {stop : Option Nat} {first : Bool} {x : Listing}
    {l : List Listing} (h : stop ≠ some x.node.index.number) :
    r.sweep lower upper stop first (x :: l) =
      r.shownOf lower upper stop first x ++ r.sweep lower upper stop false l := by
  rw [sweep, if_neg h]

/-- Leaves from the one on where a scan stops, none if it does not: they stay below the upper bound
up to some record of the first of them. -/
def StopsAt (upper : Option Key) (stop : Option Nat) (rest : List Listing) : Prop :=
  rest = [] ∨ ∃ x l, rest = x :: l ∧ stop = some x.node.index.number ∧
    (x.records.Pairwise fun a b => Scan.staysBelow upper b → Scan.staysBelow upper a) ∧
    ∀ y ∈ l, ∀ a ∈ y.records, ¬ Scan.staysBelow upper a

section
variable {lower upper : Option Key} {stop : Option Nat} {first : Bool}

/-- What a scan takes from a leaf lies in the range, if the bounds that it does not test hold. -/
theorem shownOf_eq_filter {x : Listing} (hu : ∀ a ∈ x.records, a.isUser)
    (hreach : first = true ∨ ∀ a ∈ x.records, Scan.reaches lower a)
    (hbelow : (stop ≠ some x.node.index.number ∧ ∀ a ∈ x.records, Scan.staysBelow upper a) ∨
      stop = some x.node.index.number ∧
        x.records.Pairwise fun a b => Scan.staysBelow upper b → Scan.staysBelow upper a) :
    r.shownOf lower upper stop first x =
      (x.records.filter r.isVisible).filter fun a => Key.InRange lower upper a.key := by
  have habove : (if first then (x.records.filter r.isVisible).filter (Scan.reaches lower)
      else x.records.filter r.isVisible) =
        (x.records.filter r.isVisible).filter (Scan.reaches lower) := by
    rcases hreach with h | h
    · rw [if_pos h]
    · have hself : (x.records.filter r.isVisible).filter (Scan.reaches lower) =
          x.records.filter r.isVisible :=
        List.filter_eq_self.mpr fun a ha => h a (List.mem_filter.mp ha).1
      rw [hself, ite_self]
  have hbelow' : r.shownOf lower upper stop first x =
      ((x.records.filter r.isVisible).filter (Scan.reaches lower)).filter
        (Scan.staysBelow upper) := by
    unfold shownOf
    simp only [habove]
    rcases hbelow with ⟨hne, h⟩ | ⟨heq, h⟩
    · rw [if_neg hne]
      refine (List.filter_eq_self.mpr fun a ha => h a ?_).symm
      exact (List.mem_filter.mp (List.mem_filter.mp ha).1).1
    · rw [if_pos heq]
      exact takeWhile_eq_filter ((h.filter _).filter _)
  rw [hbelow', List.filter_filter]
  refine List.filter_congr fun a ha => ?_
  rw [Bool.eq_iff_iff, decide_eq_true_iff, Scan.inRange_iff (hu a (List.mem_filter.mp ha).1),
    Bool.and_eq_true, and_comm]

/-- **What a scan takes from leaves in a row** is what lies in the range, if all leaves but the
first reach the lower bound and those before the stop are below the upper. -/
theorem sweep_eq_filter {M rest : List Listing} (hu : ∀ y ∈ M ++ rest, ∀ a ∈ y.records, a.isUser)
    (hM : ∀ y ∈ M, stop ≠ some y.node.index.number ∧ ∀ a ∈ y.records, Scan.staysBelow upper a)
    (hrest : StopsAt upper stop rest)
    (hfirst : first = true ∨ ∀ y ∈ M ++ rest, ∀ a ∈ y.records, Scan.reaches lower a)
    (htail : ∀ y ∈ (M ++ rest).tail, ∀ a ∈ y.records, Scan.reaches lower a) :
    r.sweep lower upper stop first (M ++ rest) =
      (((M ++ rest).flatMap Listing.records).filter r.isVisible).filter
        fun a => Key.InRange lower upper a.key := by
  induction M generalizing first with
  | nil =>
    rw [List.nil_append] at *
    rcases hrest with rfl | ⟨x, l, rfl, hstop, hpair, hl⟩
    · rfl
    · have hx := shownOf_eq_filter (r := r) (hu x (by simp))
        (hfirst.imp_right fun h => h x (by simp)) (Or.inr ⟨hstop, hpair⟩)
      have hnil : ((l.flatMap Listing.records).filter r.isVisible).filter
          (fun a => decide (Key.InRange lower upper a.key)) = [] := by
        refine List.filter_eq_nil_iff.mpr fun a ha hr => ?_
        obtain ⟨y, hy, ha⟩ := List.mem_flatMap.mp (List.mem_filter.mp ha).1
        have huser := hu y (by simp [hy]) a ha
        exact hl y hy a ha ((Scan.inRange_iff huser).mp (of_decide_eq_true hr)).2
      rw [sweep_of_eq hstop, hx, List.flatMap_cons, List.filter_append, List.filter_append, hnil,
        List.append_nil]
  | cons y M ih =>
    obtain ⟨hne, hbelow⟩ := hM y (by simp)
    have hy := shownOf_eq_filter (r := r) (hu y (by simp))
      (hfirst.imp_right fun h => h y (by simp)) (Or.inl ⟨hne, hbelow⟩)
    have hrec := @ih false (fun z hz => hu z (by simp at hz ⊢; tauto))
      (fun z hz => hM z (by simp [hz])) (Or.inr htail)
      (fun z hz => htail z (List.mem_of_mem_tail hz))
    rw [List.cons_append, sweep_of_ne hne, hy, hrec, List.flatMap_cons, List.filter_append,
      List.filter_append]

end

/-- A leaf that a scan can read. -/
structure Readable (r : Reader) (x : Listing) : Prop where
  node : r.node x.node.index.number = .ok x.node
  leaf : x.node.index.isLeaf
  lists : r.Lists x

theorem Readable.fill_eq_ok {x : Listing} (h : r.Readable x)
    (hs : r.options.strictRecordCount = false) (hv : s.visited < r.pageCount) :
    r.fill s x.node.index.number = .ok { s with
      first := false
      buffer := s.buffer ++ r.shownOf s.lower s.upper s.endPage s.first x
      nextPage := if s.endPage = some x.node.index.number then none else x.node.index.next
      visited := s.visited + 1 } := by
  have hl : r.leafRecords x.node.index.number = .ok (x.records, x.node.index.next) := by
    unfold leafRecords
    rw [h.node]
    simp [bind, Except.bind, h.leaf, h.lists.records_eq_ok hs, pure, Except.pure]
  unfold fill
  rw [if_neg (by omega), hl]
  by_cases hend : s.endPage = some x.node.index.number <;>
    simp [bind, Except.bind, pure, Except.pure, shownOf, hend]

theorem drain_of_none (hn : s.nextPage = none) : r.drain s = .done s.buffer := by
  rw [drain]
  split
  · rfl
  · next page e => rw [hn] at e; cases e

theorem drain_of_fill {page : Nat} (hn : s.nextPage = some page)
    (hf : r.fill { s with buffer := [] } page = .ok s') (h : r.drain s' = .done l) :
    r.drain s = .done (s.buffer ++ l) := by
  rw [drain]
  split
  · next e => rw [hn] at e; cases e
  · next page' e =>
    rw [hn] at e
    cases e
    split
    · next e he => rw [hf] at he; cases he
    · next t ht =>
      rw [hf] at ht
      cases ht
      exact Run.prepend_eq_done.mpr ⟨l, h, rfl⟩

/-- **A scan along linked leaves** takes from them what it is to take from leaves in a row. -/
theorem drain_eq_done {x : Listing} {l : List Listing} (hn : s.nextPage = some x.node.index.number)
    (hr : ∀ y ∈ x :: l, r.Readable y) (hs : r.options.strictRecordCount = false)
    (hlink : (x :: l).IsChain fun x y => x.node.index.next = some y.node.index.number)
    (hlast : ∀ y ∈ (x :: l).getLast?, y.node.index.next = none)
    (hv : s.visited + (x :: l).length ≤ r.pageCount) :
    r.drain s = .done (s.buffer ++ r.sweep s.lower s.upper s.endPage s.first (x :: l)) := by
  induction l generalizing s x with
  | nil =>
    have hf := (hr x (by simp)).fill_eq_ok (s := { s with buffer := [] }) hs
      (by simp at hv ⊢; omega)
    refine drain_of_fill hn hf ?_
    rw [drain_of_none]
    · simp [sweep]
    · simpa using fun _ => hlast x (by simp)
  | cons y l ih =>
    have hf := (hr x (by simp)).fill_eq_ok (s := { s with buffer := [] }) hs
      (by simp at hv ⊢; omega)
    refine drain_of_fill hn hf ?_
    rw [List.isChain_cons_cons] at hlink
    by_cases hend : s.endPage = some x.node.index.number
    · rw [drain_of_none (by simp [hend]), sweep_of_eq hend]
      simp
    · rw [ih (x := y) (by simp [hend, hlink.1]) (fun z hz => hr z (List.mem_cons_of_mem _ hz))
        hlink.2 (by simpa using hlast) (by simp at hv ⊢; omega)]
      rw [sweep_of_ne hend]
      simp

/-! ### From leaf to leaf -/

variable {xs A B : List Listing} {x : Listing} {lower upper : Option Key} {stop : Option Nat}
variable {aim : Aim} {level : Nat}

theorem WellFormed.readable (h : r.WellFormed xs) : ∀ y ∈ leavesOf xs, r.Readable y := by
  obtain ⟨level, htree⟩ := h.tree
  intro y hy
  obtain ⟨hmem, hleaf⟩ := List.mem_filter.mp hy
  exact ⟨htree.node_eq_ok y hmem, hleaf, htree.lists y hmem⟩

theorem WellFormed.length_leavesOf_le (h : r.WellFormed xs) :
    (leavesOf xs).length ≤ r.pageCount := by
  have hsub : (leavesOf xs).map (fun x => x.node.index.number) ⊆ List.range r.pageCount := by
    intro n hn
    obtain ⟨y, hy, rfl⟩ := List.mem_map.mp hn
    exact List.mem_range.mpr (Reader.node_eq_ok (h.readable y hy).node).1
  have hle := (List.Nodup.subperm h.distinct hsub).length_le
  rwa [List.length_map, List.length_range] at hle

/-- The rows on the left of the leaf that the search for the lower bound comes to do not lie in the
range. -/
theorem Lands.filter_rowsOf (h : r.Lands lower aim level r.root xs A x B) :
    ((rowsOf xs).filter r.isVisible).filter (fun a => decide (Key.InRange lower upper a.key)) =
      (((x :: B).flatMap Listing.records).filter r.isVisible).filter
        fun a => Key.InRange lower upper a.key := by
  have hnil : ((A.flatMap Listing.records).filter r.isVisible).filter
      (fun a => decide (Key.InRange lower upper a.key)) = [] := by
    refine List.filter_eq_nil_iff.mpr fun a ha hr => ?_
    obtain ⟨t, rfl, hlt | ⟨-, e⟩⟩ := h.before a (List.mem_filter.mp ha).1
    · exact (of_decide_eq_true hr).1 t rfl hlt
    · cases e
  rw [rowsOf, h.leaves, List.flatMap_append, List.filter_append, List.filter_append, hnil,
    List.nil_append]

/-- **A scan from the leaf of the lower bound** to a leaf where it stops, or to the last. -/
theorem drain_of_lands (h : r.WellFormed xs) (hs : r.options.strictRecordCount = false)
    (hland : r.Lands lower aim level r.root xs A x B) {M rest : List Listing}
    (e : x :: B = M ++ rest)
    (hM : ∀ y ∈ M, stop ≠ some y.node.index.number ∧ ∀ a ∈ y.records, Scan.staysBelow upper a)
    (hrest : StopsAt upper stop rest) :
    r.drain (.ofPages lower upper x.node.index.number stop) =
      .done (((rowsOf xs).filter r.isVisible).filter fun a => Key.InRange lower upper a.key) := by
  have hsuf : (x :: B).IsSuffix (leavesOf xs) := ⟨A, hland.leaves.symm⟩
  have hread : ∀ y ∈ x :: B, r.Readable y := fun y hy => h.readable y (hsuf.subset hy)
  have hreach : ∀ y ∈ B, ∀ a ∈ y.records, Scan.reaches lower a := by
    intro y hy a ha
    have huser := (hread y (by simp [hy])).lists.user a ha
    rw [Scan.reaches_iff huser]
    rintro t ⟨⟩ hlt
    exact hland.after a (List.mem_flatMap.mpr ⟨y, hy, ha⟩) (Aim.passes_some.mpr (Or.inl hlt))
  have hlast : ∀ y ∈ (x :: B).getLast?, y.node.index.next = none := fun y hy => by
    refine h.last y ?_
    rw [hland.leaves, List.getLast?_append, Option.mem_def.mp hy]
    rfl
  have hlen := hsuf.length_le.trans h.length_leavesOf_le
  have htail : ∀ y ∈ (M ++ rest).tail, ∀ a ∈ y.records, Scan.reaches lower a := by
    rw [← e]
    exact hreach
  have hsweep := sweep_eq_filter (r := r) (fun y hy => (hread y (e ▸ hy)).lists.user) hM hrest
    (Or.inl (Eq.refl true)) htail
  rw [← e] at hsweep
  rw [drain_eq_done (x := x) (l := B) rfl hread hs (h.linked.suffix hsuf) hlast
    (by simpa [Scan.ofPages] using hlen), hland.filter_rowsOf, ← hsweep]
  rfl

/-- Two searches that come to leaves in this order. -/
theorem Lands.exists_between {key : Option Key} {aim' : Aim} {A' B' : List Listing} {x' : Listing}
    (h : r.Lands lower aim level r.root xs A x B)
    (h' : r.Lands key aim' level r.root xs A' x' B') (hlen : A.length ≤ A'.length) :
    ∃ M, A' = A ++ M ∧ x :: B = M ++ x' :: B' := by
  rcases List.append_eq_append_iff.mp (h.leaves.symm.trans h'.leaves) with
    ⟨M, hA, e⟩ | ⟨M, hA, e⟩
  · exact ⟨M, hA, e⟩
  · have hM := congrArg List.length hA
    rw [List.length_append] at hM
    obtain rfl : M = [] := List.length_eq_zero_iff.mp (by omega)
    exact ⟨[], by simpa using hA.symm, e.symm⟩

/-- A scan stops at the leaf that the search for its upper bound comes to. -/
theorem Lands.stopsAt {K : Key → Prop} {hi : Key}
    (hland : r.Lands (some hi) .before level r.root xs A x B) (h : r.WellFormed xs)
    (ho : Key.OrderedOn K) (hK : ∀ k, HasKey xs k → K k) (hhi : K hi)
    (hlen : hi.length ≤ r.keyLength) :
    StopsAt (some hi) (some x.node.index.number) (x :: B) := by
  refine Or.inr ⟨x, B, rfl, rfl, ?_, fun y hy a ha hbelow => ?_⟩
  · have hl := (h.readable x (by rw [hland.leaves]; simp)).lists
    obtain ⟨hx, -⟩ := hland.mem_leavesOf
    have hp := hl.listsKeys.pairwise_below ho (fun a ha => hK _ ⟨x, hx, a, ha, rfl⟩) hhi hlen
    have hsub : x.records.Sublist x.chain :=
      (List.sublist_append_left _ _).trans (List.sublist_cons_self _ _)
    exact (hp.sublist hsub).imp fun h => by simpa [Scan.staysBelow] using h
  · have huser := (h.readable y (by rw [hland.leaves]; simp [hy])).lists.user a ha
    rw [Scan.staysBelow_iff huser] at hbelow
    exact hland.after a (List.mem_flatMap.mpr ⟨y, hy, ha⟩)
      (Aim.passes_some.mpr (Or.inl (hbelow hi rfl)))

/-- How the search for a lower bound treats a record that is equal to it. -/
def startAim (r : Reader) (lower : Option Key) : Aim :=
  match lower with
  | some key => if key.length = r.keyLength then .equal else .before
  | none => .before

theorem rangeOfLeaves_none {start : Node}
    (hstart : r.descend lower (r.startAim lower) = .ok start) :
    r.rangeOfLeaves lower none = .ok (.ofPages lower none start.index.number none) := by
  unfold rangeOfLeaves
  rw [bind_eq_ok]
  exact ⟨start, hstart, rfl⟩

theorem rangeOfLeaves_some {hi : Key} {start last : Node}
    (hstart : r.descend lower (r.startAim lower) = .ok start)
    (hlast : r.descend (some hi) .before = .ok last) :
    r.rangeOfLeaves lower (some hi) =
      .ok (.ofPages lower (some hi) start.index.number (some last.index.number)) := by
  unfold rangeOfLeaves
  rw [bind_eq_ok]
  refine ⟨start, hstart, ?_⟩
  simp only [hlast]
  rfl

/-- The search for the lower bound passes no more than that for the upper bound. -/
theorem passes_of_startAim {K : Key → Prop} {lo hi k : Key} (ho : Key.OrderedOn K)
    (hq : r.Seeks K lo (r.startAim (some lo))) (hhi : K hi) (hlen : hi.length ≤ r.keyLength)
    (hle : compareKeys lo hi = .lt ∨ compareKeys lo hi = .eq ∧ lo.length < hi.length) (hk : K k)
    (hkl : k.length = r.keyLength) (hp : (r.startAim (some lo)).Passes (some lo) k) :
    Aim.before.Passes (some hi) k := by
  refine Aim.passes_some.mpr (Or.inl ?_)
  rcases Aim.passes_some.mp hp with hlt | ⟨heq, haim⟩
  · exact compareKeys_of_lt_of_le ho hk hq.known hhi hlt (hle.imp_right fun h => ⟨h.1, h.2.le⟩)
  · -- the lower bound is whole, and so the upper one is above it
    have hlo := hq.whole haim
    have hlt := hle.resolve_right fun h => by omega
    exact compareKeys_of_le_of_lt ho hk hq.known hhi (by omega) (by omega) (by rw [heq]; rfl) hlt

/-- **A scan of the leaves of a range** gives the shown rows that lie in it. -/
theorem exists_rangeOfLeaves {K : Key → Prop} (h : r.WellFormed xs)
    (hs : r.options.strictRecordCount = false) (ho : Key.OrderedOn K)
    (hK : ∀ k, HasKey xs k → K k) (hlower : ∀ k ∈ lower, K k ∧ k.length ≤ r.keyLength)
    (hupper : ∀ k ∈ upper, K k ∧ k.length ≤ r.keyLength)
    (hle : ∀ lo ∈ lower, ∀ hi ∈ upper,
      compareKeys lo hi = .lt ∨ compareKeys lo hi = .eq ∧ lo.length < hi.length) :
    ∃ s, r.rangeOfLeaves lower upper = .ok s ∧ r.drain s = .done
      (((rowsOf xs).filter r.isVisible).filter fun a => Key.InRange lower upper a.key) := by
  obtain ⟨level, htree⟩ := h.tree
  have hq : ∀ t, lower = some t → r.Seeks K t (r.startAim lower) := by
    rintro t rfl
    refine ⟨(hlower t rfl).1, (hlower t rfl).2, fun haim => ?_⟩
    by_contra hne
    simp [startAim, hne] at haim
  cases upper with
  | none =>
    obtain ⟨A, x, B, hland⟩ := htree.exists_lands h.slotted ho hK hq
    refine ⟨_, rangeOfLeaves_none hland.descend_eq_ok, ?_⟩
    refine drain_of_lands h hs hland (List.append_nil _).symm (fun y _ => ⟨nofun, ?_⟩) (Or.inl rfl)
    exact fun a _ => rfl
  | some hi =>
    have hq' : ∀ t, some hi = some t → r.Seeks K t .before := by
      rintro t ⟨⟩
      exact ⟨(hupper hi rfl).1, (hupper hi rfl).2, nofun⟩
    obtain ⟨A, x, B, A', x', B', hland, hland', hlen⟩ :=
      htree.exists_lands_le h.slotted ho hK hq hq' fun k hk hkl hp => by
        obtain ⟨lo, rfl, -⟩ := id hp
        exact passes_of_startAim ho (hq lo rfl) (hupper hi rfl).1 (hupper hi rfl).2
          (hle lo rfl hi rfl) hk hkl hp
    refine ⟨_, rangeOfLeaves_some hland.descend_eq_ok hland'.descend_eq_ok, ?_⟩
    obtain ⟨M, rfl, e⟩ := hland.exists_between hland' hlen
    refine drain_of_lands h hs hland e (fun y hy => ⟨?_, fun a ha => ?_⟩)
      (hland'.stopsAt h ho hK (hupper hi rfl).1 (hupper hi rfl).2)
    · -- the leaf where the scan stops is not among those before it
      have hdist := h.distinct
      rw [hland'.leaves, List.map_append, List.nodup_append] at hdist
      intro e'
      exact hdist.2.2 _ (List.mem_map_of_mem (List.mem_append_right A hy)) _
        (List.mem_map_of_mem List.mem_cons_self) (Option.some.inj e').symm
    · have huser := (h.readable y (by rw [hland'.leaves]; simp [hy])).lists.user a ha
      obtain ⟨_, ⟨⟩, hlt | ⟨-, hab⟩⟩ :=
        hland'.before a (List.mem_flatMap.mpr ⟨y, List.mem_append_right A hy, ha⟩)
      · simpa [Scan.staysBelow_iff huser] using hlt
      · cases hab

/-- Bounds that are the same whole key. -/
def IsPoint (r : Reader) (lower upper : Option Key) : Prop :=
  ∃ lo hi, lower = some lo ∧ upper = some hi ∧ lo.length = r.keyLength ∧ hi.length = r.keyLength ∧
    compareKeys lo hi = .eq

theorem checkBound_eq_ok {bound : Option Key}
    (h : ∀ k ∈ bound, k ≠ [] ∧ k.length ≤ r.keyLength) : r.checkBound bound = .ok () := by
  cases bound with
  | none => rfl
  | some k =>
    obtain ⟨hne, hlen⟩ := h k rfl
    unfold checkBound
    simp [hne, hlen]

theorem range_eq (hlower : ∀ k ∈ lower, k ≠ [] ∧ k.length ≤ r.keyLength)
    (hupper : ∀ k ∈ upper, k ≠ [] ∧ k.length ≤ r.keyLength)
    (hle : ∀ lo ∈ lower, ∀ hi ∈ upper,
      compareKeys lo hi = .lt ∨ compareKeys lo hi = .eq ∧ lo.length < hi.length) :
    r.range lower upper = r.rangeOfLeaves lower upper := by
  unfold range
  simp only [checkBound_eq_ok hlower, checkBound_eq_ok hupper, bind, Except.bind]
  cases lower with
  | none => cases upper <;> rfl
  | some lo =>
    cases upper with
    | none => rfl
    | some hi =>
      rcases hle lo rfl hi rfl with hlt | ⟨heq, hlen⟩
      · simp only [hlt]
      · simp only [heq, if_neg (Nat.not_le.mpr hlen)]

theorem range_of_eq {lo hi : Key} (hlo : lo ≠ [] ∧ lo.length ≤ r.keyLength)
    (hhi : hi ≠ [] ∧ hi.length ≤ r.keyLength) (heq : compareKeys lo hi = .eq)
    (hlen : hi.length ≤ lo.length) : r.range (some lo) (some hi) =
      if lo.length = r.keyLength ∧ hi.length = r.keyLength then
        do return .ofRecords (← r.get lo).toList
      else .ok (.ofRecords []) := by
  unfold range
  rw [checkBound_eq_ok (by rintro k ⟨⟩; exact hlo), checkBound_eq_ok (by rintro k ⟨⟩; exact hhi)]
  simp only [bind, Except.bind, heq, if_pos hlen]
  split <;> rfl

theorem yields_ofRecords (l : List Record) : r.Yields (.ofRecords l) l :=
  yields_of_drain (drain_of_none rfl)

/-- A range whose upper bound is a beginning of the lower one is empty. -/
theorem not_inRange_of_eq {K : Key → Prop} (ho : Key.OrderedOn K) {lo hi k : Key} (hlo : K lo)
    (hhi : K hi) (hk : K k) (heq : compareKeys lo hi = .eq) (hlen : hi.length ≤ lo.length) :
    ¬ Key.InRange (some lo) (some hi) k := by
  rintro ⟨hge, hlt⟩
  refine hge lo rfl (compareKeys_of_lt_of_le ho hk hhi hlo (hlt hi rfl) (Or.inr ⟨?_, hlen⟩))
  rw [compareKeys_swap ho hlo hhi, heq]
  rfl

/-- A range whose upper bound is a beginning of the lower one. -/
theorem exists_range_of_eq {K : Key → Prop} {lo hi : Key} (h : r.WellFormed xs)
    (ho : Key.OrderedOn K) (hK : ∀ k, HasKey xs k → K k) (hlo : K lo) (hhi : K hi)
    (hlower : lo ≠ [] ∧ lo.length ≤ r.keyLength) (hupper : hi ≠ [] ∧ hi.length ≤ r.keyLength)
    (heq : compareKeys lo hi = .eq) (hlen : hi.length ≤ lo.length) :
    ∃ s, r.range (some lo) (some hi) = .ok s ∧
      (¬ r.IsPoint (some lo) (some hi) → r.Yields s (((rowsOf xs).filter r.isVisible).filter
        fun a => Key.InRange (some lo) (some hi) a.key)) ∧
      (r.IsPoint (some lo) (some hi) → ∃ o, r.get lo = .ok o ∧ r.Yields s o.toList) := by
  have hrange := range_of_eq hlower hupper heq hlen
  by_cases hpoint : lo.length = r.keyLength ∧ hi.length = r.keyLength
  · obtain ⟨o, hget⟩ : ∃ o, r.get lo = .ok o := by
      rcases h.get_cases ho hK hlo hpoint.1 with ⟨_, -, -, hget, -⟩ | ⟨-, hget⟩
      · exact ⟨_, hget⟩
      · exact ⟨_, hget⟩
    rw [if_pos hpoint, hget] at hrange
    refine ⟨_, hrange, fun hnot => ?_, fun _ => ⟨o, hget, yields_ofRecords _⟩⟩
    exact absurd ⟨lo, hi, rfl, rfl, hpoint.1, hpoint.2, heq⟩ hnot
  · rw [if_neg hpoint] at hrange
    refine ⟨_, hrange, fun _ => ?_, ?_⟩
    · rw [List.filter_eq_nil_iff.mpr fun a ha hr => ?_]
      · exact yields_ofRecords []
      · have hk := hK _ (hasKey_of_mem_rowsOf (List.mem_filter.mp ha).1)
        exact not_inRange_of_eq ho hlo hhi hk heq hlen (of_decide_eq_true hr)
    · rintro ⟨_, _, ⟨⟩, ⟨⟩, hl, hl', -⟩
      exact absurd ⟨hl, hl'⟩ hpoint

/-- **A range scan yields the rows of the full scan that lie in its range**, in their order. If both
bounds are the same whole key, it yields what a lookup of it finds. -/
theorem exists_range (h : r.WellFormed xs) (hs : r.options.strictRecordCount = false)
    (ho : Key.OrderedOn fun k => HasKey xs k ∨ k ∈ lower ∨ k ∈ upper)
    (hlower : ∀ k ∈ lower, k ≠ [] ∧ k.length ≤ r.keyLength)
    (hupper : ∀ k ∈ upper, k ≠ [] ∧ k.length ≤ r.keyLength)
    (hle : ∀ lo ∈ lower, ∀ hi ∈ upper, compareKeys lo hi ≠ .gt) :
    ∃ l s, r.all = .ok l ∧ r.range lower upper = .ok s ∧
      (¬ r.IsPoint lower upper →
        r.Yields s (l.filter fun a => Key.InRange lower upper a.key)) ∧
      (r.IsPoint lower upper → ∃ key ∈ lower, ∃ o, r.get key = .ok o ∧ r.Yields s o.toList) := by
  have hall := all_eq_ok h.tree hs
  by_cases heq : ∃ lo ∈ lower, ∃ hi ∈ upper, compareKeys lo hi = .eq ∧ hi.length ≤ lo.length
  · obtain ⟨lo, rfl, hi, rfl, heq, hlen⟩ := heq
    obtain ⟨s, hrange, hyields, hpoint⟩ := exists_range_of_eq h ho (fun _ => Or.inl)
      (Or.inr (Or.inl rfl)) (Or.inr (Or.inr rfl)) (hlower lo rfl) (hupper hi rfl) heq hlen
    exact ⟨_, s, hall, hrange, hyields, fun hp => ⟨lo, rfl, hpoint hp⟩⟩
  · have hstrict : ∀ lo ∈ lower, ∀ hi ∈ upper,
        compareKeys lo hi = .lt ∨ compareKeys lo hi = .eq ∧ lo.length < hi.length := by
      intro lo hlo hi hhi
      cases e : compareKeys lo hi with
      | lt => exact Or.inl rfl
      | eq => exact Or.inr ⟨rfl, Nat.lt_of_not_le fun hlen => heq ⟨lo, hlo, hi, hhi, e, hlen⟩⟩
      | gt => exact absurd e (hle lo hlo hi hhi)
    obtain ⟨s, hrange, hdrain⟩ := exists_rangeOfLeaves h hs ho (fun _ => Or.inl)
      (fun k hk => ⟨Or.inr (Or.inl hk), (hlower k hk).2⟩)
      (fun k hk => ⟨Or.inr (Or.inr hk), (hupper k hk).2⟩) hstrict
    rw [← range_eq hlower hupper hstrict] at hrange
    refine ⟨_, s, hall, hrange, fun _ => yields_of_drain hdrain, ?_⟩
    rintro ⟨lo, hi, hlo, hhi, hll, hhl, heq'⟩
    exact absurd ⟨lo, hlo, hi, hhi, heq', by omega⟩ heq

/-- A range of the tree of two leaves, from a key on one leaf to a key on the other. -/
theorem exists_range_twoLeaves :
    ∃ l s, TwoLeaves.reader.all = .ok l ∧
      TwoLeaves.reader.range (some [.int 2]) (some [.int 7]) = .ok s ∧
      (¬ TwoLeaves.reader.IsPoint (some [.int 2]) (some [.int 7]) → TwoLeaves.reader.Yields s
        (l.filter fun a => Key.InRange (some [.int 2]) (some [.int 7]) a.key)) ∧
      (TwoLeaves.reader.IsPoint (some [.int 2]) (some [.int 7]) → ∃ key ∈ some [.int 2], ∃ o,
        TwoLeaves.reader.get key = .ok o ∧ TwoLeaves.reader.Yields s o.toList) := by
  refine exists_range TwoLeaves.wellFormed rfl (TwoLeaves.orderedOn ?_) (by decide +kernel)
    (by decide +kernel) (by decide +kernel)
  rintro k (⟨⟨⟩⟩ | ⟨⟨⟩⟩) v hv
  · exact ⟨2, List.mem_singleton.mp hv⟩
  · exact ⟨7, List.mem_singleton.mp hv⟩

end Reader
end Tablespace
