import Mathlib.Data.List.Chain
import Tablespace.Proofs.Decoding
import Tablespace.Record.Chain

/-! # Following the links of a page

From each record but a supremum the chain of a page goes on to what is decoded at the next origin.
What is decoded at an origin depends on nothing but the origin: so there is one way from a record to
the end of its chain, and a chain that comes back to an origin has no end.

* `Record.LeadsTo`, `Record.ChainTo`: from a record to the next, and to the end of its chain.
* `Record.ChainTo.unique`: there is one way. `Record.ChainTo.nodup`: no record comes twice on it.
* `Codec.chainFrom_of_chainTo`: what a chain decode makes of it. -/

namespace Tablespace

namespace Record

theorem isUser_iff {a : Record} : a.isUser ↔ ¬ a.isInfimum ∧ ¬ a.isSupremum := by
  unfold isUser isInfimum isSupremum
  cases a.status <;> simp

theorem not_isInfimum_of_isSupremum {a : Record} (h : a.isSupremum) : ¬ a.isInfimum := by
  have hs : a.status = .supremum := of_decide_eq_true h
  simp [isInfimum, hs]

/-- A record leads to what is decoded at its next origin. -/
def LeadsTo (read : Nat → Except Error Record) (a b : Record) : Prop :=
  ∃ origin, a.nextOrigin? = some origin ∧ read origin = .ok b

/-- **From a record to the end of its chain**: the records before the first supremum, each leading
to the next, and that supremum. -/
inductive ChainTo (read : Nat → Except Error Record) : Record → List Record → Record → Prop
  | supremum {a : Record} (h : a.isSupremum) : ChainTo read a [] a
  | next {a b last : Record} {l : List Record} (h : ¬ a.isSupremum) (link : LeadsTo read a b)
      (rest : ChainTo read b l last) : ChainTo read a (a :: l) last

variable {read : Nat → Except Error Record} {a b c last last' : Record} {l l' : List Record}

theorem LeadsTo.unique (hb : LeadsTo read a b) (hc : LeadsTo read a c) : b = c := by
  obtain ⟨origin, ho, hb⟩ := hb
  obtain ⟨origin', ho', hc⟩ := hc
  cases ho.symm.trans ho'
  exact Except.ok.inj (hb.symm.trans hc)

namespace ChainTo

theorem isSupremum (h : ChainTo read a l last) : last.isSupremum := by
  induction h with
  | supremum h => exact h
  | next _ _ _ ih => exact ih

theorem not_isSupremum (h : ChainTo read a l last) : ∀ b ∈ l, ¬ b.isSupremum := by
  induction h with
  | supremum => simp
  | next h _ _ ih => exact List.forall_mem_cons.mpr ⟨h, ih⟩

/-- **A chain has one end**, and one way to it. -/
theorem unique (h : ChainTo read a l last) (h' : ChainTo read a l' last') :
    l = l' ∧ last = last' := by
  induction h generalizing l' last' with
  | supremum h =>
    cases h' with
    | supremum => exact ⟨rfl, rfl⟩
    | next hn => exact absurd h hn
  | next hn link _ ih =>
    cases h' with
    | supremum h => exact absurd h hn
    | next _ link' rest' =>
      obtain rfl := link.unique link'
      obtain ⟨rfl, rfl⟩ := ih rest'
      exact ⟨rfl, rfl⟩

/-- A chain goes on from each of its records to the same end. -/
theorem of_mem (h : ChainTo read a l last) (hb : b ∈ l) :
    ∃ m n, l = m ++ b :: n ∧ ChainTo read b (b :: n) last := by
  induction h with
  | supremum => cases hb
  | @next a _ _ l hn link rest ih =>
    rcases List.mem_cons.mp hb with rfl | hb
    · exact ⟨[], l, rfl, .next hn link rest⟩
    · obtain ⟨m, n, rfl, h⟩ := ih hb
      exact ⟨a :: m, n, rfl, h⟩

/-- **The records up to the end of a chain are distinct**, by their origins. -/
theorem nodup (h : ChainTo read a l last) (hd : ∀ b ∈ l ++ [last], read b.origin = .ok b) :
    ((l ++ [last]).map origin).Nodup := by
  induction h with
  | supremum => simp
  | @next a b last l hn link rest ih =>
    refine List.nodup_cons.mpr ⟨fun hmem => ?_, ih fun c hc => hd c (List.mem_cons_of_mem _ hc)⟩
    obtain ⟨c, hc, ho⟩ := List.mem_map.mp hmem
    have hca : c = a := by
      have hread := hd c (List.mem_cons_of_mem _ hc)
      rw [ho, hd a (by simp)] at hread
      exact (Except.ok.inj hread).symm
    subst hca
    rcases List.mem_append.mp hc with hc | hc
    · -- from its second occurrence the record would have a shorter way to the end
      obtain ⟨m, n, e, hfrom⟩ := rest.of_mem hc
      have hlength := congrArg List.length ((ChainTo.next hn link rest).unique hfrom).1
      rw [e] at hlength
      simp only [List.length_cons, List.length_append] at hlength
      omega
    · rw [List.mem_singleton.mp hc] at hn
      exact hn rest.isSupremum

theorem not_isInfimum_iff (h : ChainTo read a l last) :
    (∀ b ∈ l, ¬ b.isInfimum) ↔ ¬ a.isInfimum ∧ ∀ b ∈ l.tail, ¬ b.isInfimum := by
  cases h with
  | supremum h => simp [not_isInfimum_of_isSupremum h]
  | next => exact List.forall_mem_cons

/-- What a chain decode makes of a record that is no infimum and of what follows it. -/
theorem cons_eq (h : ChainTo read a l last) (hi : ¬ a.isInfimum) :
    (if a.isUser then a :: l.tail else l.tail) = l := by
  cases h with
  | supremum h => rw [if_neg fun hu => (isUser_iff.mp hu).2 h, List.tail_nil]
  | next hn => rw [if_pos (isUser_iff.mpr ⟨hi, hn⟩), List.tail_cons]

/-- Records each of which leads to the next are on the way to a supremum. -/
theorem of_isChain (hr : ∀ b ∈ l ++ [last], read b.origin = .ok b)
    (hc : (a :: (l ++ [last])).IsChain fun b c => b.nextOrigin? = some c.origin)
    (ha : ¬ a.isSupremum) (hl : ∀ b ∈ l, ¬ b.isSupremum) (hs : last.isSupremum) :
    ChainTo read a (a :: l) last := by
  induction l generalizing a with
  | nil =>
    have hnext := (List.isChain_cons_cons.mp hc).1
    exact .next ha ⟨_, hnext, hr last (by simp)⟩ (.supremum hs)
  | cons b l ih =>
    obtain ⟨hnext, hc⟩ := List.isChain_cons_cons.mp hc
    obtain ⟨hb, hl⟩ := List.forall_mem_cons.mp hl
    exact .next ha ⟨_, hnext, hr b (by simp)⟩
      (ih (fun c hc => hr c (List.mem_cons_of_mem _ hc)) hc hb hl)

end ChainTo
end Record

/-- **What a chain decode makes of a chain** without a second infimum: the records after the first,
if its steps suffice for the way and one more, on which it finds that the chain is at its end. -/
theorem Codec.chainFrom_of_chainTo {read : Nat → Except Error Record} {p : Page} {a last : Record}
    {l : List Record} {steps : Nat} (h : Record.ChainTo read a l last)
    (hinf : ∀ b ∈ l.tail, ¬ b.isInfimum) :
    chainFrom read p steps a =
      if l.length < steps then .ok l.tail else p.damaged .chainUnending := by
  induction h generalizing steps with
  | supremum hs =>
    cases steps with
    | zero => rfl
    | succ steps =>
      rw [chainFrom, Record.nextOrigin?_of_isSupremum hs]
      rfl
  | @next a b last l hn link rest ih =>
    obtain ⟨origin, ho, hb⟩ := link
    obtain ⟨hi, hinf⟩ := rest.not_isInfimum_iff.mp hinf
    cases steps with
    | zero => rfl
    | succ steps =>
      rw [chainFrom, ho]
      simp only [hb, bind, Except.bind, if_neg hi, ih hinf, List.length_cons,
        Nat.add_lt_add_iff_right, List.tail_cons]
      by_cases hlt : l.length < steps
      · rw [if_pos hlt, if_pos hlt]
        exact congrArg Except.ok (rest.cons_eq hi)
      · rw [if_neg hlt, if_neg hlt]
        rfl

end Tablespace
