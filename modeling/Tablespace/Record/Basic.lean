import Tablespace.Record.Header
import Tablespace.Value.Order

/-! # Records

* `Record`: a decoded record. Infimum and supremum have no key, and lie below and above every key.
* `Record.nextOrigin?`: the origin of the next record.
* `Record.compareKey`: the order of a record and a key.
* `Record.project`: a record with some of its values. -/

namespace Tablespace

/-- **A record.** -/
structure Record where
  page : Nat
  origin : Nat
  header : RecordHeader
  /-- The values of the key fields. -/
  key : Key
  /-- The values of the columns of the table; those of a record that is decoded up to its key are
  left out. -/
  values : List Value
  transactionId : Option Nat
  rollPointer : Option Nat
  /-- The page that a node pointer leads to. -/
  child : Option Nat
  deriving DecidableEq

namespace Record

def status (r : Record) : Status := r.header.status

def isInfimum (r : Record) : Bool := r.status = .infimum

def isSupremum (r : Record) : Bool := r.status = .supremum

/-- Whether a record is no system record. -/
def isUser (r : Record) : Bool := r.status = .ordinary || r.status = .nodePointer

def isDeleted (r : Record) : Bool := r.header.deleted

/-- **The origin of the next record**, absent after the supremum. -/
def nextOrigin? (r : Record) : Option Nat :=
  if r.isSupremum ∨ r.header.next = 0 then none
  else
    let n : Int := r.origin + r.header.next
    if n < 0 then none else some n.toNat

/-- **The order of a record and a key.** -/
def compareKey (r : Record) (target : Key) : Ordering :=
  match r.status with
  | .infimum => .lt
  | .supremum => .gt
  | _ => compareKeys r.key target

/-- The value of a column. -/
def value? (r : Record) (i : Nat) : Option Value := r.values[i]?

/-- The value of a column that has to be there. -/
def valueAt (r : Record) (i : Nat) : Except Error Value :=
  match r.value? i with
  | some v => .ok v
  | none => .error (.argument (.columnIndex i r.values.length))

/-- **A record with the values of some columns**, in their order. -/
def project (r : Record) (columns : List Nat) : Except Error Record := do
  let values ← columns.mapM r.valueAt
  return { r with values }

end Record
end Tablespace
