import Tablespace.Value.Order

/-! # Keys in order

The comparison of values is no total preorder of all values, since numbers of different sorts do not
compare alike: so the order of keys is a matter of the values that stand in them. Keys *compare
well* if, in each place, the values that stand there are in a total preorder.

A key may be a beginning of another one, which is then equal to it. Equality of keys is therefore
not transitive, and the laws say which of the three keys may be the shortest.

* `compareKeys_swap`: the order of two keys the other way round.
* `compareKeys_of_le_of_lt`, `compareKeys_of_lt_of_le`: the two laws of transitivity.
* `Key.orderedOn_int`: keys of signed integers compare well. -/

namespace Tablespace

/-- The values of a sort are in a total preorder. -/
def Value.OrderedOn (V : Value → Prop) : Prop :=
  Std.TransCmp fun a b : Subtype V => a.val.compare b.val

namespace Value.OrderedOn
variable {V W : Value → Prop}

theorem mono (h : OrderedOn W) (hVW : ∀ v, V v → W v) : OrderedOn V :=
  let up (a : Subtype V) : Subtype W := ⟨a.val, hVW _ a.property⟩
  { eq_swap := fun {a b} => h.eq_swap (a := up a) (b := up b)
    isLE_trans := fun {a b c} => h.isLE_trans (a := up a) (b := up b) (c := up c) }

theorem swap (h : OrderedOn V) {a b : Value} (ha : V a) (hb : V b) :
    b.compare a = (a.compare b).swap :=
  h.eq_swap (a := ⟨b, hb⟩) (b := ⟨a, ha⟩)

/-- Three values in a row: the first and the last compare as the first two that differ. -/
theorem compare_eq_then (h : OrderedOn V) {a b c : Value} (ha : V a) (hb : V b) (hc : V c)
    (hab : (a.compare b).isLE) (hbc : (b.compare c).isLE) :
    a.compare c = (a.compare b).then (b.compare c) := by
  have hlt := @Std.TransCmp.lt_of_lt_of_isLE (Subtype V) _ h ⟨a, ha⟩ ⟨b, hb⟩ ⟨c, hc⟩
  have heq := @Std.TransCmp.congr_left (Subtype V) _ h ⟨a, ha⟩ ⟨b, hb⟩ ⟨c, hc⟩
  cases e : a.compare b with
  | lt => exact hlt e hbc
  | eq => exact heq e
  | gt => rw [e] at hab; cases hab

end Value.OrderedOn

/-! ### Keys that compare well -/

/-- The values that some keys have in one place. -/
def Key.valuesAt (K : Key → Prop) (i : Nat) (v : Value) : Prop := ∃ k, K k ∧ k[i]? = some v

/-- **Keys that compare well**: the values in each place are in a total preorder. -/
def Key.OrderedOn (K : Key → Prop) : Prop := ∀ i, Value.OrderedOn (Key.valuesAt K i)

theorem Key.valuesAt_zero {K : Key → Prop} {v : Value} {k : Key} (h : K (v :: k)) :
    Key.valuesAt K 0 v := ⟨_, h, rfl⟩

/-- What is left of some keys after their first values. -/
def Key.tails (K : Key → Prop) (k : Key) : Prop := ∃ v, K (v :: k)

namespace Key.OrderedOn
variable {K L : Key → Prop}

theorem mono (h : OrderedOn L) (hKL : ∀ k, K k → L k) : OrderedOn K := fun i =>
  (h i).mono fun _ ⟨k, hk, hv⟩ => ⟨k, hKL k hk, hv⟩

theorem tails (h : OrderedOn K) : OrderedOn (Key.tails K) := fun i =>
  (h (i + 1)).mono fun _ ⟨k, ⟨u, hk⟩, hv⟩ => ⟨u :: k, hk, by simpa using hv⟩

end Key.OrderedOn

/-! ### The laws of the order -/

theorem compareKeys_nil (a : Key) : compareKeys a [] = .eq := by
  cases a <;> rfl

theorem compareKeys_cons (x y : Value) (a b : Key) :
    compareKeys (x :: a) (y :: b) = (x.compare y).then (compareKeys a b) := rfl

theorem compareKeys_swap {K : Key → Prop} (h : Key.OrderedOn K) {a b : Key} (ha : K a) (hb : K b) :
    compareKeys b a = (compareKeys a b).swap := by
  induction a generalizing b K with
  | nil => rw [compareKeys_nil]; cases b <;> rfl
  | cons x a ih =>
    cases b with
    | nil => rfl
    | cons y b =>
      have h0 := (h 0).swap (Key.valuesAt_zero ha) (Key.valuesAt_zero hb)
      have h1 := ih h.tails ⟨x, ha⟩ ⟨y, hb⟩
      rw [compareKeys_cons, compareKeys_cons, h0, h1, Ordering.swap_then]

theorem compareKeys_self {K : Key → Prop} (h : Key.OrderedOn K) {a : Key} (ha : K a) :
    compareKeys a a = .eq := by
  have hs := compareKeys_swap h ha ha
  cases e : compareKeys a a <;> rw [e] at hs <;> first | rfl | cases hs

theorem compareKeys_ne_lt_iff {K : Key → Prop} (h : Key.OrderedOn K) {a b : Key} (ha : K a)
    (hb : K b) : compareKeys a b ≠ .lt ↔ (compareKeys b a).isLE := by
  rw [compareKeys_swap h ha hb]
  cases compareKeys a b <;> simp

theorem isLE_of_isLE_then {o p : Ordering} (h : (o.then p).isLE) : o.isLE := by
  cases o <;> first | rfl | exact h

/-- Three keys in a row: the first is below the last unless it is equal to the middle one and that
to the last in their first places. -/
theorem compareKeys_cons_of_isLE {K : Key → Prop} (h : Key.OrderedOn K) {x y z : Value}
    {a b c : Key} (ha : K (x :: a)) (hb : K (y :: b)) (hc : K (z :: c))
    (hab : (compareKeys (x :: a) (y :: b)).isLE) (hbc : (compareKeys (y :: b) (z :: c)).isLE)
    (heq : x.compare y = .eq → y.compare z = .eq → compareKeys a c = .lt) :
    compareKeys (x :: a) (z :: c) = .lt := by
  rw [compareKeys_cons] at hab hbc ⊢
  have hxy := isLE_of_isLE_then hab
  have hyz := isLE_of_isLE_then hbc
  have hxz := (h 0).compare_eq_then (Key.valuesAt_zero ha) (Key.valuesAt_zero hb)
    (Key.valuesAt_zero hc) hxy hyz
  cases exy : x.compare y with
  | lt => rw [hxz, exy]; rfl
  | gt => rw [exy] at hxy; cases hxy
  | eq =>
    cases eyz : y.compare z with
    | lt => rw [hxz, exy, eyz]; rfl
    | gt => rw [eyz] at hyz; cases hyz
    | eq => rw [hxz, exy, eyz]; exact heq exy eyz

/-- **A key not above one that is below a bound is below the bound**, if neither of the two is
shorter than the bound. -/
theorem compareKeys_of_le_of_lt {K : Key → Prop} (h : Key.OrderedOn K) {a b c : Key} (ha : K a)
    (hb : K b) (hc : K c) (hca : c.length ≤ a.length) (hcb : c.length ≤ b.length)
    (hab : (compareKeys a b).isLE) (hbc : compareKeys b c = .lt) : compareKeys a c = .lt := by
  induction c generalizing a b K with
  | nil => rw [compareKeys_nil] at hbc; cases hbc
  | cons z c ih =>
    obtain _ | ⟨x, a⟩ := a
    · simp at hca
    obtain _ | ⟨y, b⟩ := b
    · simp at hcb
    refine compareKeys_cons_of_isLE h ha hb hc hab (by rw [hbc]; rfl) fun exy eyz => ?_
    rw [compareKeys_cons, exy] at hab
    rw [compareKeys_cons, eyz] at hbc
    exact ih h.tails ⟨x, ha⟩ ⟨y, hb⟩ ⟨z, hc⟩ (by simpa using hca) (by simpa using hcb) hab hbc

/-- **A key below one that is not above a bound is below the bound**, if the middle one is no longer
than a bound that it is equal to. -/
theorem compareKeys_of_lt_of_le {K : Key → Prop} (h : Key.OrderedOn K) {a b c : Key} (ha : K a)
    (hb : K b) (hc : K c) (hab : compareKeys a b = .lt)
    (hbc : compareKeys b c = .lt ∨ compareKeys b c = .eq ∧ b.length ≤ c.length) :
    compareKeys a c = .lt := by
  induction b generalizing a c K with
  | nil => rw [compareKeys_nil] at hab; cases hab
  | cons y b ih =>
    obtain _ | ⟨x, a⟩ := a
    · cases hab
    obtain _ | ⟨z, c⟩ := c
    · rcases hbc with hbc | ⟨-, hl⟩
      · cases hbc
      · simp at hl
    have hle : (compareKeys (y :: b) (z :: c)).isLE := by
      rcases hbc with hbc | ⟨hbc, -⟩ <;> rw [hbc] <;> rfl
    refine compareKeys_cons_of_isLE h ha hb hc (by rw [hab]; rfl) hle fun exy eyz => ?_
    rw [compareKeys_cons, exy] at hab
    rw [compareKeys_cons, eyz] at hbc
    exact ih h.tails ⟨x, ha⟩ ⟨y, hb⟩ ⟨z, hc⟩ hab (by simpa using hbc)

/-- **A key below a bound is below one that is not**, if the bound is no longer than that one. -/
theorem compareKeys_of_lt_of_not_lt {K : Key → Prop} (h : Key.OrderedOn K) {a b c : Key} (ha : K a)
    (hb : K b) (hc : K c) (hbc : b.length ≤ c.length) (hab : compareKeys a b = .lt)
    (hcb : compareKeys c b ≠ .lt) : compareKeys a c = .lt := by
  refine compareKeys_of_lt_of_le h ha hb hc hab ?_
  have hle := (compareKeys_ne_lt_iff h hc hb).mp hcb
  cases e : compareKeys b c with
  | lt => exact Or.inl rfl
  | eq => exact Or.inr ⟨rfl, hbc⟩
  | gt => rw [e] at hle; cases hle

/-! ### Integers -/

theorem Value.orderedOn_int : Value.OrderedOn fun v => ∃ n, v = .int n where
  eq_swap := by
    rintro ⟨_, m, rfl⟩ ⟨_, n, rfl⟩
    simp only [Value.compare_int]
    exact Std.OrientedOrd.eq_swap
  isLE_trans := by
    rintro ⟨_, l, rfl⟩ ⟨_, m, rfl⟩ ⟨_, n, rfl⟩
    simp only [Value.compare_int]
    exact Std.TransOrd.isLE_trans

/-- **Keys of signed integers compare well.** -/
theorem Key.orderedOn_int : Key.OrderedOn fun k => ∀ v ∈ k, ∃ n, v = .int n := fun _ =>
  Value.orderedOn_int.mono fun _ ⟨_, hk, hv⟩ => hk _ (List.mem_of_getElem? hv)

end Tablespace
