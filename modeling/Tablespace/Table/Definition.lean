import Tablespace.Json.Field
import Tablespace.Json.Parser
import Tablespace.Table.Basic

/-! # Table definitions

A table is defined by a JSON text that gives its name, its columns and its primary key.

* `Table.ofJson`: the table of a definition, which passes its check. -/

namespace Tablespace

namespace Json

/-- A column type, given by its text. -/
def columnType? (v : Json) : Option ColumnType := do
  let s ← v.string?
  (ColumnType.parse s.toList).toOption

/-- A character set, given by its name, alone or as the key of a null. -/
def charset? : Json → Option Charset
  | .string s => s.bind Charset.ofName?
  | .object [(some s, .null)] => Charset.ofName? s
  | _ => none

/-- A column. -/
def column? (v : Json) : Option Column := do
  match ← v.fields? ["name", "type", "nullable", "unsigned", "charset"] with
  | [name, type, nullable, unsigned, charset] =>
    return {
      name := ← required string? name
      type := ← required columnType? type
      nullable := ← withDefault false bool? nullable
      unsigned := ← withDefault false bool? unsigned
      charset := ← withDefault .utf8mb4 charset? charset }
  | _ => none

/-- A table, not yet checked. -/
def table? (v : Json) : Option Table := do
  match ← v.fields? ["name", "columns", "primary_key"] with
  | [name, columns, primaryKey] =>
    return {
      name := ← required string? name
      columns := ← required (list? column?) columns
      primaryKey := ← withDefault [] (list? string?) primaryKey }
  | _ => none

end Json

/-- **The table of a definition.** -/
def Table.ofJson (text : String) : Except Error Table :=
  match (Json.parse? text).bind Json.table? with
  | none => .error (.format .tableDefinition)
  | some t => do
    t.validate
    return t

end Tablespace
