import Tablespace.Proofs.Tree
import Tablespace.Tree.Walk

/-! # Full scans of a tree

A full scan visits the children of each page in the order of their node pointers, and so the leaves
from left to right.

* `Reader.subtree_eq_done`: the scan of the pages below a page.
* `Reader.all_of_tree`: a full scan gives the shown rows of all leaves, in the order of keys. -/

namespace Tablespace

theorem Run.concat_map_eq_done {f : β → Run ε α} {k : γ → β} {g : γ → List α} {l : List γ}
    (h : ∀ c ∈ l, f (k c) = .done (g c)) : concat f (l.map k) = .done (l.flatMap g) := by
  induction l with
  | nil => rfl
  | cons c l ih =>
    have hc := h c (by simp)
    have hl := ih fun d hd => h d (by simp [hd])
    rw [List.map_cons, concat, hc, hl]
    rfl

namespace Reader
variable {r : Reader} {xs : List Listing} {level page : Nat}

/-- **The scan of the pages below a page** gives the shown rows of its leaves. -/
theorem subtree_eq_done (h : r.Subtree level page xs) (hs : r.options.strictRecordCount = false) :
    ∃ n, r.node page = .ok n ∧ n.index.level = level ∧
      r.subtree level n = .done ((rowsOf xs).filter r.isVisible) := by
  induction h with
  | leaf node hlevel hl =>
    refine ⟨_, node, hlevel, ?_⟩
    rw [subtree, hl.records_eq_ok hs, rowsOf_singleton hlevel]
    rfl
  | branch node hlevel hl hp hne ha hc ih =>
    have hbr : r.Branches _ _ _ _ := ⟨node, hlevel, hl, hp, hne, ha, hc⟩
    refine ⟨_, node, hlevel, ?_⟩
    rw [subtree, hl.records_eq_ok hs, rowsOf_branch hlevel, List.filter_flatMap]
    simp only [Run.ofExcept]
    rw [hp]
    refine Run.concat_map_eq_done fun b hb => ?_
    obtain ⟨child, e, -⟩ := hbr.exists_below hb
    obtain ⟨n, hn, hnl, hrun⟩ := ih b hb child e
    simp only [childOf, e, childNode_eq_ok hn hnl]
    exact hrun

theorem traverse_eq_done (h : r.Tree xs) (hs : r.options.strictRecordCount = false) :
    r.traverse = .done ((rowsOf xs).filter r.isVisible) := by
  obtain ⟨level, h⟩ := h
  obtain ⟨n, hn, hl, hrun⟩ := subtree_eq_done h hs
  unfold traverse
  rw [hn, Run.ofExcept, hl]
  exact hrun

theorem all_eq_ok (h : r.Tree xs) (hs : r.options.strictRecordCount = false) :
    r.all = .ok ((rowsOf xs).filter r.isVisible) := by
  rw [all, traverse_eq_done h hs, Run.toExcept_done]

/-- **A full scan is complete, ordered and free of duplicates**: it gives the shown rows of the
leaves from left to right, and their keys strictly ascend. -/
theorem all_of_tree (h : r.Tree xs) (hs : r.options.strictRecordCount = false)
    (ho : Key.OrderedOn (HasKey xs)) : ∃ l, r.all = .ok l ∧ r.traverse = .done l ∧
      l = (leavesOf xs).flatMap (fun x => x.records.filter r.isVisible) ∧ l.Nodup ∧
      l.Pairwise fun a b => compareKeys a.key b.key = .lt := by
  have hasc : ((rowsOf xs).filter r.isVisible).Pairwise
      fun a b => compareKeys a.key b.key = .lt := by
    obtain ⟨level, h⟩ := h
    exact (h.rows_ascending ho fun _ hk => hk).filter _
  refine ⟨_, all_eq_ok h hs, traverse_eq_done h hs, List.filter_flatMap, ?_, hasc⟩
  refine hasc.imp_of_mem ?_
  rintro a b ha - hab rfl
  have hk := hasKey_of_mem_rowsOf (List.mem_filter.mp ha).1
  rw [compareKeys_self ho hk] at hab
  cases hab

/-- The full scan of the tree of two leaves. -/
theorem all_twoLeaves : ∃ l, TwoLeaves.reader.all = .ok l ∧ TwoLeaves.reader.traverse = .done l ∧
    l = (leavesOf [TwoLeaves.root, TwoLeaves.left, TwoLeaves.right]).flatMap
      (fun x => x.records.filter TwoLeaves.reader.isVisible) ∧ l.Nodup ∧
    l.Pairwise fun a b => compareKeys a.key b.key = .lt :=
  all_of_tree TwoLeaves.wellFormed.tree rfl
    ((TwoLeaves.orderedOn (K := fun _ => False) nofun).mono fun _ => Or.inl)

end Reader
end Tablespace
