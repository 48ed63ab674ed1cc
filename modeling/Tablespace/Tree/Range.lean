import Tablespace.Tree.Search
import Tablespace.Tree.Walk

/-! # Range scans

A range scan goes along the leaves from the leaf of its lower bound to that of its upper bound. The
lower bound is tested on the first leaf alone and the upper bound on the last. No more leaves are
read than there are pages, so that a cycle of leaves is noticed.

* `Scan`: a scan in progress. `Reader.range`: the scan of a range, before its first record.
* `Reader.next`: the next record of a scan. `Reader.drain`: all that are left.
* `Reader.between`: the records of a range. -/

namespace Tablespace

/-- **A range scan in progress.** -/
structure Scan where
  lower : Option Key
  upper : Option Key
  nextPage : Option Nat
  endPage : Option Nat
  /-- Whether the next page is the first. -/
  first : Bool
  /-- The records of the last page that are still to come. -/
  buffer : List Record
  /-- How many pages have been read. -/
  visited : Nat

namespace Scan

/-- A scan of leaves from one to another, or to the last leaf. -/
def ofPages (lower upper : Option Key) (start : Nat) (stop : Option Nat) : Scan :=
  { lower, upper, nextPage := some start, endPage := stop, first := true, buffer := [],
    visited := 0 }

/-- A scan of records that are already there. -/
def ofRecords (l : List Record) : Scan :=
  { lower := none, upper := none, nextPage := none, endPage := none, first := false, buffer := l,
    visited := 0 }

/-- Whether a record is not below a bound, if there is one. -/
def reaches (lower : Option Key) (rec : Record) : Bool :=
  match lower with
  | some key => rec.compareKey key ≠ .lt
  | none => true

/-- Whether a record is below a bound, if there is one. -/
def staysBelow (upper : Option Key) (rec : Record) : Bool :=
  match upper with
  | some key => rec.compareKey key = .lt
  | none => true

end Scan

namespace Reader

/-- The user records of a leaf, and the leaf to its right. -/
def leafRecords (r : Reader) (page : Nat) : Except Error (List Record × Option Nat) := do
  let n ← r.node page
  if n.index.isLeaf then return (← r.records n, n.index.next)
  else .error (.corrupt page (.notLeaf n.index.level))

/-- **The scan after the records of a leaf are read.** -/
def fill (r : Reader) (s : Scan) (page : Nat) : Except Error Scan :=
  if r.pageCount ≤ s.visited then .error (.corrupt page .siblingCycle)
  else do
    let (l, next) ← r.leafRecords page
    let isEnd := decide (s.endPage = some page)
    let shown := l.filter r.isVisible
    let above := if s.first then shown.filter (Scan.reaches s.lower) else shown
    let inside := if isEnd then above.takeWhile (Scan.staysBelow s.upper) else above
    return { s with
      first := false
      buffer := s.buffer ++ inside
      nextPage := if isEnd then none else next
      visited := s.visited + 1 }

theorem visited_of_fill {r : Reader} {s s' : Scan} {page : Nat} (h : r.fill s page = .ok s') :
    s.visited < r.pageCount ∧ s'.visited = s.visited + 1 := by
  unfold fill at h
  split at h
  · cases h
  · next hv =>
    cases hl : r.leafRecords page with
    | error => simp only [hl, bind, Except.bind] at h; cases h
    | ok l =>
      simp only [hl, bind, Except.bind, pure, Except.pure] at h
      cases h
      exact ⟨by omega, rfl⟩

/-- The end of a scan. -/
def finished (s : Scan) : Scan := { s with nextPage := none, buffer := [] }

/-- **The next record of a scan**, absent at its end, and the scan after it. After a failure the
scan is at its end. -/
def next (r : Reader) (s : Scan) : Option (Except Error Record) × Scan :=
  match s.buffer with
  | rec :: rest => (some (.ok rec), { s with buffer := rest })
  | [] =>
    match s.nextPage with
    | none => (none, s)
    | some page =>
      match _h : r.fill s page with
      | .error e => (some (.error e), finished s)
      | .ok s' => r.next s'
termination_by r.pageCount - s.visited
decreasing_by have := visited_of_fill _h; omega

/-- **All that is left of a scan.** -/
def drain (r : Reader) (s : Scan) : Run Error Record :=
  match s.nextPage with
  | none => .done s.buffer
  | some page =>
    match _h : r.fill { s with buffer := [] } page with
    | .error e => (Run.fail e).prepend s.buffer
    | .ok s' => (r.drain s').prepend s.buffer
termination_by r.pageCount - s.visited
decreasing_by have := visited_of_fill _h; simp only at this; omega

/-- Fail unless a bound gives some of the key fields, from the first on. -/
def checkBound (r : Reader) (bound : Option Key) : Except Error Unit :=
  match bound with
  | none => .ok ()
  | some key =>
    if key = [] ∨ r.keyLength < key.length then
      .error (.argument (.boundLength key.length r.keyLength))
    else .ok ()

/-- The scan of the leaves of a range. -/
def rangeOfLeaves (r : Reader) (lower upper : Option Key) : Except Error Scan := do
  let aim := match lower with
    | some key => if key.length = r.keyLength then Aim.equal else Aim.before
    | none => Aim.before
  let start ← r.descend lower aim
  let stop ← match upper with
    | some key => some <$> r.descend (some key) .before
    | none => .ok none
  return .ofPages lower upper start.index.number (stop.map fun n => n.index.number)

/-- **The scan of the records from `lower` on and below `upper`.** Equal whole keys look up their
record; any other range whose upper bound is a beginning of the lower one is empty. -/
def range (r : Reader) (lower upper : Option Key) : Except Error Scan := do
  r.checkBound lower
  r.checkBound upper
  match lower, upper with
  | some lo, some hi =>
    match compareKeys lo hi with
    | .gt => .error (.argument .boundsReversed)
    | .eq =>
      if hi.length ≤ lo.length then
        if lo.length = r.keyLength ∧ hi.length = r.keyLength then
          return .ofRecords (← r.get lo).toList
        else return .ofRecords []
      else r.rangeOfLeaves lower upper
    | .lt => r.rangeOfLeaves lower upper
  | _, _ => r.rangeOfLeaves lower upper

/-- The records of a range, up to a failure. -/
def rangeRun (r : Reader) (lower upper : Option Key) : Run Error Record :=
  .ofExcept (r.range lower upper) r.drain

/-- **The records of a range.** Without bounds it is a full scan. -/
def between (r : Reader) (lower upper : Option Key) : Except Error (List Record) :=
  match lower, upper with
  | none, none => r.all
  | _, _ => (r.rangeRun lower upper).toExcept

end Reader
end Tablespace
