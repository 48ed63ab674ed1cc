import Tablespace.Column.Basic

/-! # Tables

* `Table`: named columns and the names of those that make up the primary key.
* `Table.validate`: columns have different names, and the key names some of them, none twice and
  none of large values.
* `Table.columnIndex?`: the place of a column. -/

namespace Tablespace

/-- **A table.** Without a primary key its rows are told apart by a hidden row id. -/
structure Table where
  name : String
  columns : List Column
  primaryKey : List String
  deriving DecidableEq

namespace Table

/-- The place of the column of a name. -/
def columnIndex? (t : Table) (name : String) : Option Nat :=
  t.columns.findIdx? fun c => c.name = name

/-- The column of a name. -/
def column? (t : Table) (name : String) : Option Column :=
  t.columns.find? fun c => c.name = name

/-- The first of some names that stands among those before it. -/
def firstRepeated? : List String → List String → Option String
  | _, [] => none
  | seen, n :: rest => if n ∈ seen then some n else firstRepeated? (n :: seen) rest

/-- Check the columns of a key, after those already seen. -/
def validateKey (t : Table) : List String → List String → Except Error Unit
  | _, [] => .ok ()
  | seen, n :: rest =>
    match t.column? n with
    | none => .error (.argument (.unknownKeyColumn n))
    | some c =>
      if n ∈ seen then .error (.argument (.repeatedKeyColumn n))
      else if c.type.isLarge then .error (.unsupported (.largeKeyColumn n))
      else validateKey t (n :: seen) rest

/-- **Check a table.** -/
def validate (t : Table) : Except Error Unit :=
  if t.columns = [] then .error (.argument (.noColumns t.name))
  else match firstRepeated? [] (t.columns.map Column.name) with
    | some n => .error (.argument (.duplicateColumn n))
    | none => t.validateKey [] t.primaryKey

end Table
end Tablespace
