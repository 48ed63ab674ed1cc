import Tablespace.Column.Basic
import Tablespace.Error
import Tablespace.Text.Hex
import Tablespace.Value.Duration
import Tablespace.Value.Exact
import Tablespace.Value.Basic

/-! # Literals

A literal is the text of a value, read by the type of a column. `null` in any case is null.

* `Value.ofBinaryLiteral`: the bytes of a literal.
* `Column.literal`: the value of a literal. -/

namespace Tablespace

/-- **The bytes of a literal**: hexadecimal digits behind their marker, or else the text itself. The
slices of the digits go astray inside a character. -/
def Value.ofBinaryLiteral (cs : List Char) : Except Error Value :=
  match cs with
  | '0' :: 'x' :: ds =>
    match Hex.read ds with
    | .ok (some data) => .ok (.bytes data)
    | .ok none => .ok (.bytes (Utf8.encode (String.ofList cs)))
    | .error offset => .error (.stray offset)
  | _ => .ok (.bytes (Utf8.encode (String.ofList cs)))

namespace Column

/-- The value of a literal other than null, absent where the type has no such value. Literals of
bytes are read apart. -/
def literal? (c : Column) (cs : List Char) : Option Value :=
  let trimmed := Text.trim cs
  if c.type.isInteger then
    if c.unsigned then .uint <$> Numeral.unsigned? Numeral.maxLong trimmed
    else .int <$> Numeral.signed? 64 trimmed
  else match c.type with
    | .year | .bit _ => .uint <$> Numeral.unsigned? Numeral.maxLong trimmed
    | .float => .float <$> Single.ofText? trimmed
    | .double => .double <$> Double.ofText? trimmed
    | .decimal .. => (Exact.ofText? trimmed).map fun _ => .decimal (String.ofList trimmed)
    | .time _ => (Duration.micros? trimmed).map fun _ => .time (String.ofList trimmed)
    | _ =>
      if c.charset = .binary then some (.bytes (Utf8.encode (String.ofList cs)))
      else some (.str (String.ofList cs))

/-- **The value of a literal.** -/
def literal (c : Column) (text : String) : Except Error Value :=
  if Text.lower text.toList = "null".toList then .ok .null
  else if c.type.isBinary then Value.ofBinaryLiteral text.toList
  else match c.literal? text.toList with
    | some v => .ok v
    | none => .error (.argument (.literal text c.type c.name))

end Column
end Tablespace
