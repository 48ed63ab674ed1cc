import Tablespace.Record.Codec

/-! # Record chains

The records of a page are chained in the order of their keys, from the infimum to the supremum.

* `Codec.chain`: the user records of a page in their order. -/

namespace Tablespace.Codec

/-- The user records that follow a record within some steps, up to the supremum. -/
def chainFrom (read : Nat → Except Error Record) (p : Page) :
    Nat → Record → Except Error (List Record)
  | 0, _ => p.damaged .chainUnending
  | steps + 1, r =>
    match r.nextOrigin? with
    | none => .ok []
    | some origin => do
      let next ← read origin
      if next.isInfimum then p.damaged .chainUnending
      else
        let rest ← chainFrom read p steps next
        return if next.isUser then next :: rest else rest

/-- **The user records of a page**, those marked as deleted among them. -/
def chain (c : Codec) (src : PageSource) (p : Page) (x : IndexPage) (depth : Depth) :
    Except Error (List Record) := do
  let read := c.read src p x.isLeaf depth
  let first ← read IndexPage.infimum
  chainFrom read p x.maxSteps first

end Tablespace.Codec
