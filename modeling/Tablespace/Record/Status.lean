/-! # Record status

Three bits of a record header tell ordinary records from node pointers and from the two system
records that begin and end the chain of a page. -/

namespace Tablespace

/-- **The status of a record.** -/
inductive Status
  | ordinary
  | nodePointer
  | infimum
  | supremum
  deriving DecidableEq, Repr

namespace Status

/-- The status of a code, of which the three lowest bits count. -/
def ofCode? (n : Nat) : Option Status :=
  match n % 8 with
  | 0 => some .ordinary
  | 1 => some .nodePointer
  | 2 => some .infimum
  | 3 => some .supremum
  | _ => none

/-- The code of a status. -/
def code : Status → Nat
  | .ordinary => 0
  | .nodePointer => 1
  | .infimum => 2
  | .supremum => 3

/-- The name of a status. -/
def name : Status → String
  | .ordinary => "REC_STATUS_ORDINARY"
  | .nodePointer => "REC_STATUS_NODE_PTR"
  | .infimum => "REC_STATUS_INFIMUM"
  | .supremum => "REC_STATUS_SUPREMUM"

theorem ofCode?_code (s : Status) : ofCode? s.code = some s := by
  cases s <;> rfl

end Status
end Tablespace
