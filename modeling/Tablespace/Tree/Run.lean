/-! # Runs

A run is what a walk over damaged data gives: rows in order, and the failure that ended it, if it
did not come to its end. -/

namespace Tablespace

/-- **Rows in order, and the failure that ended them.** -/
structure Run (ε α : Type) where
  rows : List α
  failure : Option ε

namespace Run

/-- The run of rows that came to its end. -/
def done (rows : List α) : Run ε α := ⟨rows, none⟩

/-- The run that failed before its first row. -/
def fail (e : ε) : Run ε α := ⟨[], some e⟩

/-- Rows before a run. -/
def prepend (rows : List α) (r : Run ε α) : Run ε α := { r with rows := rows ++ r.rows }

/-- The run that goes on with the result of a computation, if there is one. -/
def ofExcept (x : Except ε β) (f : β → Run ε α) : Run ε α :=
  match x with
  | .ok b => f b
  | .error e => fail e

/-- One run after another, up to the first failure. -/
def andThen (r s : Run ε α) : Run ε α :=
  match r.failure with
  | none => s.prepend r.rows
  | some _ => r

/-- The runs of the members of a list one after another, up to the first failure. -/
def concat (f : β → Run ε α) : List β → Run ε α
  | [] => done []
  | b :: bs => (f b).andThen (concat f bs)

/-- All rows of a run that came to its end, or the failure. -/
def toExcept (r : Run ε α) : Except ε (List α) :=
  match r.failure with
  | none => .ok r.rows
  | some e => .error e

/-- The rows of a run one by one, and last the failure. -/
def items (r : Run ε α) : List (Except ε α) :=
  r.rows.map .ok ++ (r.failure.map .error).toList

theorem toExcept_done (rows : List α) : (done rows : Run ε α).toExcept = .ok rows := rfl

theorem toExcept_andThen (r s : Run ε α) :
    (r.andThen s).toExcept = (do return (← r.toExcept) ++ (← s.toExcept)) := by
  rcases r with ⟨rows, _ | e⟩
  · rcases s with ⟨rows', _ | e'⟩ <;> rfl
  · rfl

end Run
end Tablespace
