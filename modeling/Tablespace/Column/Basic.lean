import Tablespace.Column.Parser

/-! # Columns

* `Column`: a named column of a table.
* `Column.parse`: a column from the text of its type, after which `unsigned` may stand. -/

namespace Tablespace

/-- **A column.** -/
structure Column where
  name : String
  type : ColumnType
  nullable : Bool
  unsigned : Bool
  charset : Charset
  deriving DecidableEq

namespace Column

/-- A column of a type, not nullable, signed, of text in `utf8mb4`. -/
def ofType (name : String) (type : ColumnType) : Column :=
  { name, type, nullable := false, unsigned := false, charset := .utf8mb4 }

/-- The word that may follow a type. -/
def unsignedWord : List Char := "unsigned".toList

/-- A text without the word that may follow a type, and whether it was there. The word alone
is no type. -/
def splitUnsigned (text : List Char) : List Char × Bool :=
  if text.length > unsignedWord.length ∧ unsignedWord.isSuffixOf (Text.lower text) then
    (text.take (text.length - unsignedWord.length), true)
  else (text, false)

/-- **A column from the text of its type.** -/
def parse (name text : String) : Except Error Column := do
  let (cs, unsigned) := splitUnsigned (Text.trim text.toList)
  let type ← ColumnType.parse cs
  return { ofType name type with unsigned }

/-- The bytes that every value of the column takes, absent where they vary. -/
def fixedLength (c : Column) : Option Nat := c.type.fixedLength c.charset

end Column
end Tablespace
