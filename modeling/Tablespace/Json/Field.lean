import Tablespace.Json.Basic

/-! # Fields of JSON values

A structure is read from an object, whose members may come in any order and among members of other
names, or from an array of its fields in order, the last of which may be missing. A field that is
given twice, or an array with too many items, is refused.

* `Json.fields?`: the values given for the fields of a structure.
* `Json.bool?`, `Json.string?`, `Json.unsigned?`, `Json.signed?`: the values of plain fields. -/

namespace Tablespace.Json

/-- The values of the members of one name. -/
def named (members : List (Option String × Json)) (name : String) : List Json :=
  (members.filter fun m => m.1 = some name).map Prod.snd

/-- The one value of a member that may be missing but not repeated. -/
def atMostOne? : List Json → Option (Option Json)
  | [] => some none
  | [v] => some (some v)
  | _ => none

/-- **The values given for the fields** of a structure, in the order of their names. -/
def fields? (names : List String) : Json → Option (List (Option Json))
  | .object members =>
    if members.any fun m => m.1.isNone then none
    else names.mapM fun n => atMostOne? (named members n)
  | .array items =>
    if items.length ≤ names.length then
      some ((items.map some).rightpad names.length none)
    else none
  | _ => none

def bool? : Json → Option Bool
  | .bool b => some b
  | _ => none

def string? : Json → Option String
  | .string s => s
  | _ => none

/-- The items of an array, each read by `f`. -/
def list? (f : Json → Option α) : Json → Option (List α)
  | .array items => items.mapM f
  | _ => none

/-- A natural number up to `limit`, written as an integer. -/
def unsigned? (limit : Nat) : Json → Option Nat
  | .number n => do
    let n ← Numeral.nat? n.toList
    if n ≤ limit then some n else none
  | _ => none

/-- An integer of `bits` bits, written as an integer; zero has no sign. -/
def signed? (bits : Nat) : Json → Option Int
  | .number n => if n = "-0" then none else Numeral.signed? bits n.toList
  | _ => none

/-- A value that may be given as null. -/
def orNull? (f : Json → Option α) : Json → Option (Option α)
  | .null => some none
  | v => (f v).map some

/-- The value of a field that must be given. -/
def required (f : Json → Option α) (v : Option Json) : Option α := v.bind f

/-- The value of a field with a default. -/
def withDefault (d : α) (f : Json → Option α) : Option Json → Option α
  | none => some d
  | some v => f v

end Tablespace.Json
