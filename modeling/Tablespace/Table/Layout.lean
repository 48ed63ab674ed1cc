import Tablespace.Table.Basic

/-! # Record layout

A record of the clustered index holds the fields of the key, then the hidden fields of its
transaction, then all other columns in the order of the table. A table without a primary key has
the hidden row id as its key.

* `Field`: a stored field, its source, its length and its place in the null bitmap.
* `Layout.of`: the layout of a table. `Table.layout`: the same after a check of the table. -/

namespace Tablespace

/-- **Where a stored field comes from.** -/
inductive Source
  /-- A column of the table, and its place. -/
  | column (index : Nat) (column : Column)
  /-- The hidden row id. -/
  | rowId
  deriving DecidableEq

/-- **A stored field.** -/
structure Field where
  source : Source
  /-- The bytes of every value, absent where they vary. -/
  fixedLength : Option Nat
  /-- Whether a length that varies may take two bytes. -/
  big : Bool
  /-- The place in the null bitmap, absent where the field is never null. -/
  nullBit : Option Nat
  deriving DecidableEq

/-- **The layout of records.** -/
structure Layout where
  keyFields : List Field
  valueFields : List Field
  /-- How many fields may be null. -/
  nullable : Nat
  deriving DecidableEq

/-- The bytes of a row id. -/
def rowIdBytes : Nat := 6

namespace Field

/-- The field of a column. -/
def ofColumn (index : Nat) (column : Column) (nullBit : Option Nat) : Field :=
  let fixedLength := column.fixedLength
  { source := .column index column
    fixedLength
    big := fixedLength.isNone && column.type.isBig column.charset
    nullBit }

/-- The field of the hidden row id. -/
def rowId : Field :=
  { source := .rowId, fixedLength := some rowIdBytes, big := false, nullBit := none }

/-- Whether the length varies from value to value. -/
def isVariable (f : Field) : Bool := f.fixedLength.isNone

end Field

namespace Layout

/-- The fields of the key. A column of the key is never null, whatever its definition says. -/
def keyFieldsOf (t : Table) : List Field :=
  if t.primaryKey = [] then [.rowId]
  else t.primaryKey.filterMap fun n =>
    match t.columnIndex? n, t.column? n with
    | some i, some c => some (.ofColumn i c none)
    | _, _ => none

/-- The fields of the columns from place `i` on that are not in the key, `n` of those before
them being nullable. -/
def valueFieldsFrom (key : List String) : (i n : Nat) → List Column → List Field
  | _, _, [] => []
  | i, n, c :: rest =>
    if c.name ∈ key then valueFieldsFrom key (i + 1) n rest
    else if c.nullable then .ofColumn i c (some n) :: valueFieldsFrom key (i + 1) (n + 1) rest
    else .ofColumn i c none :: valueFieldsFrom key (i + 1) n rest

/-- **The layout of a table.** -/
def of (t : Table) : Layout where
  keyFields := keyFieldsOf t
  valueFields := valueFieldsFrom t.primaryKey 0 0 t.columns
  nullable := t.columns.countP fun c => c.name ∉ t.primaryKey ∧ c.nullable

/-- The bytes of the null bitmap. -/
def nullBytes (l : Layout) : Nat := (l.nullable + 7) / 8

/-- Whether the key is the hidden row id. -/
def hasRowId (l : Layout) : Bool := l.keyFields.head?.map Field.source = some .rowId

end Layout

/-- **The layout of a table that passes its check.** -/
def Table.layout (t : Table) : Except Error Layout := do
  t.validate
  return Layout.of t

end Tablespace
