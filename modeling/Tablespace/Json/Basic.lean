import Tablespace.Binary.Shortest
import Tablespace.Text.Hex

/-! # JSON values

A value keeps the order and the repetitions of an object's members, and a number as it is written.
A string is absent where its escapes leave half of a surrogate pair alone, for then it is no text.

* `Json.compact`, `Json.pretty`: the two forms in which values are written. -/

namespace Tablespace

/-- **A JSON value.** -/
inductive Json
  | null
  | bool (b : Bool)
  | number (numeral : String)
  | string (text : Option String)
  | array (items : List Json)
  | object (members : List (Option String × Json))

namespace Json

/-- The value of a text. -/
def text (s : String) : Json := .string (some s)

/-- The value of a natural number. -/
def nat (n : Nat) : Json := .number (String.ofList (Numeral.digits n))

/-- The value of an integer. -/
def int (z : Int) : Json := .number (String.ofList (Numeral.paddedInt 0 z))

/-- The value of a single; infinities and NaNs have none. -/
def single (w : UInt32) : Json := ((Shortest.single? w).map number).getD null

/-- The value of a double; infinities and NaNs have none. -/
def double (w : UInt64) : Json := ((Shortest.double? w).map number).getD null

/-- The value of something that may be absent. -/
def option (f : α → Json) (a : Option α) : Json := (a.map f).getD null

/-- The object of the given members. -/
def record (members : List (String × Json)) : Json :=
  .object (members.map fun m => (some m.1, m.2))

/-- The array of the values of a list. -/
def list (f : α → Json) (l : List α) : Json := .array (l.map f)

/-! ### Writing -/

/-- A character as it is written in a string: the two delimiters and controls are escaped. -/
def escaped (c : Char) : List Char :=
  if c = '"' then ['\\', '"']
  else if c = '\\' then ['\\', '\\']
  else if c = '\n' then ['\\', 'n']
  else if c = '\r' then ['\\', 'r']
  else if c = '\t' then ['\\', 't']
  else if c = '\x08' then ['\\', 'b']
  else if c = '\x0c' then ['\\', 'f']
  else if c.toNat < 0x20 then '\\' :: 'u' :: Numeral.hexPadded 4 c.toNat
  else [c]

/-- A string between its delimiters. -/
def quoted (s : String) : String :=
  String.ofList ('"' :: s.toList.flatMap escaped ++ ['"'])

/-- A string as it is written; one that is no text is written as empty. -/
def quotedString (s : Option String) : String := quoted (s.getD "")

mutual

/-- **The compact form**, without blanks. -/
def compact : Json → String
  | .null => "null"
  | .bool b => if b then "true" else "false"
  | .number n => n
  | .string s => quotedString s
  | .array items => "[" ++ compactItems items ++ "]"
  | .object members => "\x7b" ++ compactMembers members ++ "\x7d"

/-- Items with commas between them. -/
def compactItems : List Json → String
  | [] => ""
  | [v] => v.compact
  | v :: rest => v.compact ++ "," ++ compactItems rest

/-- Members with commas between them. -/
def compactMembers : List (Option String × Json) → String
  | [] => ""
  | [(k, v)] => quotedString k ++ ":" ++ v.compact
  | (k, v) :: rest => quotedString k ++ ":" ++ v.compact ++ "," ++ compactMembers rest

end

/-- The start of a line at a depth of nesting. -/
def newline (depth : Nat) : String := "\n" ++ String.ofList (List.replicate (2 * depth) ' ')

mutual

/-- The pretty form of a value that stands at a depth of nesting. -/
def prettyAt (depth : Nat) : Json → String
  | .array [] => "[]"
  | .array items => "[" ++ prettyItems (depth + 1) items ++ newline depth ++ "]"
  | .object [] => "\x7b\x7d"
  | .object members => "\x7b" ++ prettyMembers (depth + 1) members ++ newline depth ++ "\x7d"
  | .null => "null"
  | .bool b => if b then "true" else "false"
  | .number n => n
  | .string s => quotedString s

/-- Items on lines of their own. -/
def prettyItems (depth : Nat) : List Json → String
  | [] => ""
  | [v] => newline depth ++ prettyAt depth v
  | v :: rest => newline depth ++ prettyAt depth v ++ "," ++ prettyItems depth rest

/-- Members on lines of their own. -/
def prettyMembers (depth : Nat) : List (Option String × Json) → String
  | [] => ""
  | [(k, v)] => newline depth ++ quotedString k ++ ": " ++ prettyAt depth v
  | (k, v) :: rest =>
    newline depth ++ quotedString k ++ ": " ++ prettyAt depth v ++ "," ++ prettyMembers depth rest

end

/-- **The pretty form**: every item and member on a line of its own, two blanks deeper than what
holds it. -/
def pretty (v : Json) : String := prettyAt 0 v

end Json
end Tablespace
