import Tablespace.Proofs.KeyOrder

/-! # A bound among keys in order

A bound of a range may be a beginning of a key. Among whole keys in order it stands in one place:
first come the keys below it, then those that it is a beginning of, then those above it. What is
below a bound is also below any bound further up.

* `compareKeys_of_gt_of_le`: what follows a key above a bound is above it too.
* `eq_filter_append_of_rising`: a list along which an ordering rises falls into three parts.
* `Key.OrderedOn.splits`: a bound splits keys in order once, and bounds in order split them in
  order. -/

namespace Tablespace

/-- **A key not below one that is above a bound is above the bound**, if it is no shorter than that
one. -/
theorem compareKeys_of_gt_of_le {K : Key → Prop} (h : Key.OrderedOn K) {a b bound : Key} (ha : K a)
    (hb : K b) (hbound : K bound) (hl : a.length ≤ b.length) (hab : compareKeys a b ≠ .gt)
    (hgt : compareKeys a bound = .gt) : compareKeys b bound = .gt := by
  have hlt : compareKeys bound a = .lt := by
    rw [compareKeys_swap h ha hbound, hgt]
    rfl
  have hle : compareKeys a b = .lt ∨ compareKeys a b = .eq ∧ a.length ≤ b.length := by
    cases e : compareKeys a b with
    | lt => exact .inl rfl
    | eq => exact .inr ⟨rfl, hl⟩
    | gt => exact absurd e hab
  rw [compareKeys_swap h hbound hb, compareKeys_of_lt_of_le h hbound ha hb hlt hle]
  rfl

/-- **A list along which an ordering rises**: what is less comes first, and what is greater last. -/
theorem eq_filter_append_of_rising {f : α → Ordering} {l : List α}
    (h : l.Pairwise fun a b => (f b = .lt → f a = .lt) ∧ (f a = .gt → f b = .gt)) :
    l = l.filter (f · = .lt) ++ (l.filter (f · = .eq) ++ l.filter (f · = .gt)) := by
  induction l with
  | nil => rfl
  | cons a l ih =>
    obtain ⟨ha, hl⟩ := List.pairwise_cons.mp h
    have hih := ih hl
    -- what is not less is not followed by anything less
    have hless (e : f a ≠ .lt) : l.filter (f · = .lt) = [] :=
      List.filter_eq_nil_iff.mpr fun b hb hlt => e ((ha b hb).1 (of_decide_eq_true hlt))
    cases e : f a with
    | lt => simpa [e] using hih
    | eq =>
      rw [hless (by simp [e])] at hih
      simpa [e, hless] using hih
    | gt =>
      have hequal : l.filter (f · = .eq) = [] :=
        List.filter_eq_nil_iff.mpr fun b hb heq => by simp [(ha b hb).2 e] at heq
      rw [hless (by simp [e]), hequal] at hih
      simpa [e, hless, hequal] using hih

/-- **A bound splits keys in order once**: of two whole keys in order the first is below a bound if
the second is, and the second above it if the first is, so that a list of them falls into the keys
below the bound, those that it is a beginning of and those above it. Bounds in order split it in
order: what is below the lower one is below the upper one, of which the lower one may be a
beginning. -/
theorem Key.OrderedOn.splits {K : Key → Prop} (h : Key.OrderedOn K) :
    (∀ a b bound : Key, K a → K b → K bound → a.length = b.length → bound.length ≤ a.length →
      compareKeys a b ≠ .gt →
        (compareKeys b bound = .lt → compareKeys a bound = .lt) ∧
        (compareKeys a bound = .gt → compareKeys b bound = .gt)) ∧
    (∀ (keys : List Key) (bound : Key) (n : Nat), (∀ k ∈ keys, K k ∧ k.length = n) → K bound →
      bound.length ≤ n → keys.Pairwise (compareKeys · · ≠ .gt) →
        keys = keys.filter (compareKeys · bound = .lt) ++
          (keys.filter (compareKeys · bound = .eq) ++ keys.filter (compareKeys · bound = .gt))) ∧
    (∀ lo hi k : Key, K lo → K hi → K k →
      (compareKeys lo hi = .lt ∨ compareKeys lo hi = .eq ∧ lo.length ≤ hi.length) →
      compareKeys k lo = .lt → compareKeys k hi = .lt) := by
  have pair : ∀ a b bound : Key, K a → K b → K bound → a.length = b.length →
      bound.length ≤ a.length → compareKeys a b ≠ .gt →
        (compareKeys b bound = .lt → compareKeys a bound = .lt) ∧
        (compareKeys a bound = .gt → compareKeys b bound = .gt) := by
    intro a b bound ha hb hbound hl hbl hab
    have hle : (compareKeys a b).isLE := Ordering.isLE_iff_ne_gt.mpr hab
    exact ⟨compareKeys_of_le_of_lt h ha hb hbound hbl (by omega) hle,
      compareKeys_of_gt_of_le h ha hb hbound (by omega) hab⟩
  refine ⟨pair, fun keys bound n hkeys hbound hn hsorted => ?_, fun lo hi k hlo hhi hk hle hlt =>
    compareKeys_of_lt_of_le h hk hlo hhi hlt hle⟩
  refine eq_filter_append_of_rising (hsorted.imp_of_mem fun {a b} ha hb hab => ?_)
  obtain ⟨hKa, hla⟩ := hkeys a ha
  obtain ⟨hKb, hlb⟩ := hkeys b hb
  exact pair a b bound hKa hKb hbound (by omega) (by omega) hab

/-- Keys of two integers and a bound of one: the bound splits the keys, and lies below a bound that
goes on from it. -/
theorem Key.OrderedOn.splits_pairs :
    (let keys : List Key :=
        [[.int 0, .int 9], [.int 1, .int 5], [.int 2, .int 0], [.int 2, .int 3]];
      keys.Pairwise (compareKeys · · ≠ .gt) ∧
        keys = keys.filter (compareKeys · [.int 1] = .lt) ++
          (keys.filter (compareKeys · [.int 1] = .eq) ++
            keys.filter (compareKeys · [.int 1] = .gt))) ∧
    compareKeys [.int 1] [.int 1, .int 5] = .eq ∧
    compareKeys [.int 0, .int 9] [.int 1, .int 5] = .lt ∧
    compareKeys [.int 2, .int 3] [.int 1] = .gt := by
  obtain ⟨hpair, hlist, hbounds⟩ := Key.orderedOn_int.splits
  refine ⟨⟨by decide, ?_⟩, by decide, ?_, ?_⟩
  · exact hlist _ [.int 1] 2 (by simp) (by simp) (by decide) (by decide)
  · exact hbounds [.int 1] [.int 1, .int 5] [.int 0, .int 9] (by simp) (by simp) (by simp)
      (by decide) (by decide)
  · exact (hpair [.int 2, .int 0] [.int 2, .int 3] [.int 1] (by simp) (by simp) (by simp) rfl
      (by decide) (by decide)).2 (by decide)

end Tablespace
