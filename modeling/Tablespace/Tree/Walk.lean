import Tablespace.Tree.Reader
import Tablespace.Tree.Run

/-! # Full scans

A full scan goes depth first through all pages of the index. Each page lies one level below the
page that leads to it, so that it ends whatever the pages are.

* `Reader.traverse`: the records of all leaves, up to a failure. `Reader.all`: the same unless it
  fails. `Reader.select`: those that pass a test, with some of their columns. -/

namespace Tablespace.Reader

/-- The child of a node pointer. -/
def childOf (n : Node) (rec : Record) : Except Error Nat :=
  match rec.child with
  | some child => .ok child
  | none => .error (.corrupt n.index.number (.noChild rec.origin))

/-- **The shown records below a page of a level**, in order. -/
def subtree (r : Reader) : (level : Nat) → Node → Run Error Record
  | 0, n => .ofExcept (r.records n) fun l => .done (l.filter r.isVisible)
  | level + 1, n => .ofExcept (r.records n) fun l =>
    .concat (fun rec => .ofExcept (childOf n rec) fun child =>
      .ofExcept (r.childNode (level + 1) child) fun below => r.subtree level below) l

/-- **The shown records of the table** in the order of their keys, up to a failure. -/
def traverse (r : Reader) : Run Error Record :=
  .ofExcept (r.node r.root) fun n => r.subtree n.index.level n

/-- **All shown records of the table.** -/
def all (r : Reader) : Except Error (List Record) := r.traverse.toExcept

/-- The records with some of their columns, or whole. -/
def projectAll (columns : Option (List Nat)) (l : List Record) : Except Error (List Record) :=
  match columns with
  | none => .ok l
  | some cs => l.mapM fun rec => rec.project cs

/-- **The shown records that pass a test**, with some of their columns or whole. -/
def select (r : Reader) (test : Record → Bool) (columns : Option (List Nat)) :
    Except Error (List Record) := do
  let l ← r.all
  projectAll columns (l.filter test)

end Tablespace.Reader
