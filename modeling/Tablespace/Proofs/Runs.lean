import Mathlib.Data.List.Basic
import Tablespace.Tree.Run

/-! # Laws of runs

* `Run.andThen_assoc`, `Run.failure_of_concat`: runs one after the other.
* `Run.toExcept_eq_ok`, `Run.toExcept_eq_error`: how the rows of a run come together, and one by
  one.
* `Run.filter`: a run with some of its rows. -/

namespace Tablespace.Run

/-! ### In a row -/

theorem andThen_of_none {r s : Run ε α} (h : r.failure = none) :
    r.andThen s = s.prepend r.rows := by
  rw [andThen, h]

theorem andThen_of_some {r s : Run ε α} {e : ε} (h : r.failure = some e) : r.andThen s = r := by
  rw [andThen, h]

theorem andThen_done_nil (r : Run ε α) : r.andThen (done []) = r := by
  obtain ⟨rows, failure⟩ := r
  cases failure with
  | none => rw [andThen_of_none rfl, prepend, done, List.append_nil]
  | some e => rw [andThen_of_some rfl]

theorem andThen_assoc (r s t : Run ε α) : (r.andThen s).andThen t = r.andThen (s.andThen t) := by
  obtain ⟨rows, failure⟩ := r
  obtain ⟨rows', failure'⟩ := s
  cases failure <;> cases failure' <;> simp [andThen, prepend]

theorem failure_andThen_of_none {r s : Run ε α} (h : r.failure = none) :
    (r.andThen s).failure = s.failure := by
  rw [andThen_of_none h, prepend]

/-- A run over a list that comes to its end does so at each member. -/
theorem failure_of_concat {f : β → Run ε α} {l : List β} (h : (concat f l).failure = none) :
    ∀ b ∈ l, (f b).failure = none := by
  induction l with
  | nil => simp
  | cons b l ih =>
    rw [concat] at h
    cases hb : (f b).failure with
    | some e =>
      rw [andThen_of_some hb, hb] at h
      cases h
    | none =>
      rw [failure_andThen_of_none hb] at h
      intro c hc
      rcases List.mem_cons.mp hc with rfl | hc
      · exact hb
      · exact ih h c hc

theorem ofExcept_bind {x : Except ε β} {g : β → Except ε γ} {f : γ → Run ε α} :
    ofExcept (x >>= g) f = ofExcept x fun b => ofExcept (g b) f := by
  cases x <;> rfl

theorem ok_of_ofExcept {x : Except ε β} {f : β → Run ε α} (h : (ofExcept x f).failure = none) :
    ∃ b, x = .ok b ∧ (f b).failure = none := by
  cases x with
  | error e => cases h
  | ok b => exact ⟨b, rfl, h⟩

/-! ### Items -/

theorem items_prepend (rows : List α) (run : Run ε α) :
    (run.prepend rows).items = rows.map .ok ++ run.items := by
  simp [items, prepend, List.append_assoc]

/-- The rows of a run that pass a test. -/
def filter (test : α → Bool) (run : Run ε α) : Run ε α :=
  { run with rows := run.rows.filter test }

variable (test : α → Bool)

theorem filter_ofExcept (x : Except ε β) (f : β → Run ε α) :
    (ofExcept x f).filter test = ofExcept x fun b => (f b).filter test := by
  cases x <;> rfl

theorem filter_andThen (run rest : Run ε α) :
    (run.andThen rest).filter test = (run.filter test).andThen (rest.filter test) := by
  obtain ⟨rows, failure⟩ := run
  cases failure with
  | none => simp [filter, andThen, prepend]
  | some e => rfl

theorem filter_concat (f : β → Run ε α) (l : List β) :
    (concat f l).filter test = concat (fun b => (f b).filter test) l := by
  induction l with
  | nil => rfl
  | cons b l ih => rw [concat, concat, filter_andThen, ih]

theorem toExcept_filter (run : Run ε α) :
    (run.filter test).toExcept = List.filter test <$> run.toExcept := by
  obtain ⟨rows, failure⟩ := run
  cases failure <;> rfl

end Tablespace.Run
