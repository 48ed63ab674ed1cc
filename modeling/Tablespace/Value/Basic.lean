import Tablespace.Binary.Numeral
import Tablespace.Bytes.Buffer
import Tablespace.Json.Basic
import Tablespace.Text.Utf8

/-! # Values

* `Value`: what a field of a record holds.
* `Value.toJson`: the JSON value that shows it; `Value.toRowJson`: the one in a row of output, where
  singles are shown as doubles. -/

namespace Tablespace

/-- **A value.** Decimals and times are held as text, floating-point numbers as their words. -/
inductive Value
  | null
  | int (n : Int)
  | uint (n : Nat)
  | float (word : UInt32)
  | double (word : UInt64)
  | decimal (text : String)
  | str (text : String)
  | time (text : String)
  | bytes (data : List UInt8)
  deriving DecidableEq

/-- A key: the values of its fields in order, or of the first of them. -/
abbrev Key : Type := List Value

namespace Value

/-- Whether a value is null. -/
def isNull : Value → Bool
  | .null => true
  | _ => false

/-- Bytes as hexadecimal digits behind their marker. -/
def hexText (data : List UInt8) : String := String.ofList ('0' :: 'x' :: Hex.encode data)

/-- **The JSON value that shows a value.** -/
def toJson : Value → Json
  | .null => .null
  | .int n => .int n
  | .uint n => .nat n
  | .float w => .single w
  | .double w => .double w
  | .decimal s | .str s | .time s => .text s
  | .bytes data => .text (hexText data)

/-- The JSON value that shows a value in a row of output. -/
def toRowJson : Value → Json
  | .float w => .double (widen w)
  | v => v.toJson

end Value
end Tablespace
