/-! # Character sets

The character set of a column bounds the bytes of a character, and tells how bytes are text. -/

namespace Tablespace

/-- **A character set.** -/
inductive Charset
  | utf8mb4
  | utf8mb3
  | latin1
  | ascii
  | binary
  deriving DecidableEq, Repr

namespace Charset

/-- The most bytes that a character takes. -/
def maxBytes : Charset → Nat
  | .utf8mb4 => 4
  | .utf8mb3 => 3
  | .latin1 | .ascii | .binary => 1

/-- The name of a character set. -/
def name : Charset → String
  | .utf8mb4 => "utf8mb4"
  | .utf8mb3 => "utf8mb3"
  | .latin1 => "latin1"
  | .ascii => "ascii"
  | .binary => "binary"

/-- The character set of a name; `utf8` is a name of `utf8mb3`. -/
def ofName? (s : String) : Option Charset :=
  if s = "utf8" then some .utf8mb3
  else [utf8mb4, utf8mb3, latin1, ascii, binary].find? fun c => c.name = s

theorem ofName?_name (c : Charset) : ofName? c.name = some c := by
  cases c <;> decide

end Charset
end Tablespace
