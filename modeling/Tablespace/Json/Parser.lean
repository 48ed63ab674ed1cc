import Tablespace.Json.Token

/-! # Reading JSON

A stack holds the arrays and objects that are open, and a stage tells what may come next. Each
token makes one step.

* `Json.step?`: the step of a token. `Json.parse?`: the value of a text. -/

namespace Tablespace.Json

/-- An open array or object: what it holds so far, latest first, and the key whose value is being
read. -/
inductive Frame
  | array (items : List Json)
  | object (members : List (Option String × Json)) (key : Option String)

/-- What may come next. -/
inductive Stage
  /-- A value. -/
  | value
  /-- The first item of an array, or its end. -/
  | firstItem
  /-- The first key of an object, or its end. -/
  | firstKey
  /-- The key of a further member, given those before it. -/
  | key (members : List (Option String × Json))
  /-- The colon after a key. -/
  | colon (members : List (Option String × Json)) (key : Option String)
  /-- What follows a value. -/
  | after (v : Json)

/-- The open arrays and objects, innermost first, and what may come next. -/
structure State where
  stack : List Frame
  stage : Stage

/-- The state after the first token of a value. -/
def beginValue (stack : List Frame) : Token → Option State
  | .scalar v => some ⟨stack, .after v⟩
  | .mark '[' => some ⟨stack, .firstItem⟩
  | .mark '\x7b' => some ⟨stack, .firstKey⟩
  | .mark _ => none

/-- **The step of a token.** -/
def step? (s : State) (t : Token) : Option State :=
  match s.stage, t with
  | .value, t => beginValue s.stack t
  | .firstItem, .mark ']' => some ⟨s.stack, .after (.array [])⟩
  | .firstItem, t => beginValue (.array [] :: s.stack) t
  | .firstKey, .mark '\x7d' => some ⟨s.stack, .after (.object [])⟩
  | .firstKey, .scalar (.string k) => some ⟨s.stack, .colon [] k⟩
  | .key ms, .scalar (.string k) => some ⟨s.stack, .colon ms k⟩
  | .colon ms k, .mark ':' => some ⟨.object ms k :: s.stack, .value⟩
  | .after v, .mark c =>
    match s.stack, c with
    | .array items :: rest, ',' => some ⟨.array (v :: items) :: rest, .value⟩
    | .array items :: rest, ']' => some ⟨rest, .after (.array (v :: items).reverse)⟩
    | .object ms k :: rest, ',' => some ⟨rest, .key ((k, v) :: ms)⟩
    | .object ms k :: rest, '\x7d' => some ⟨rest, .after (.object ((k, v) :: ms).reverse)⟩
    | _, _ => none
  | _, _ => none

/-- **The value of a text**, which holds one value and blanks. -/
def parse? (text : String) : Option Json := do
  let ts ← tokens? text.toList
  let s ← ts.foldlM step? ⟨[], .value⟩
  match s with
  | ⟨[], .after v⟩ => some v
  | _ => none

end Tablespace.Json
