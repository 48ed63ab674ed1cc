import Tablespace.Error
import Tablespace.Text.Blank

/-! # Reading column types

A type is written as a name in any case and, between parentheses, its arguments: numbers, or for
enumerations and sets elements between quotes. Numbers that a type makes no use of are allowed.

* `ColumnType.readElements`: the elements that a list of quoted texts gives.
* `ColumnType.parse`: the type of a text. -/

namespace Tablespace.ColumnType

open Text (isBlank trim)

/-- Where the reader of elements stands. -/
inductive Place
  /-- Before an element, or at the end. -/
  | before
  /-- In an element, whose text so far is given latest character first. -/
  | inside (text : List Char)
  /-- After a quote in an element, which is the first of two or ends the element. -/
  | quote (text : List Char)
  /-- After an element. -/
  | after

/-- Where the reader stands after a character that follows an element. -/
def afterElement (c : Char) : Except Error Place :=
  if isBlank c then .ok .after
  else if c = ',' then .ok .before
  else .error (.format (.elementEnd c))

/-- **The elements of a list** of texts between quotes, commas between them. -/
def readElements : Place → List Char → Except Error (List String)
  | .before, [] => .ok []
  | .before, c :: cs =>
    if c = '\x27' then readElements (.inside []) cs
    else if isBlank c then readElements .before cs
    else .error (.format (.elementStart c))
  | .inside _, [] => .error (.format .elementOpen)
  | .inside t, c :: cs =>
    if c = '\x27' then readElements (.quote t) cs else readElements (.inside (c :: t)) cs
  | .quote t, [] => .ok [String.ofList t.reverse]
  | .quote t, c :: cs =>
    if c = '\x27' then readElements (.inside (c :: t)) cs
    else do
      let place ← afterElement c
      return String.ofList t.reverse :: (← readElements place cs)
  | .after, [] => .ok []
  | .after, c :: cs => do
    let place ← afterElement c
    readElements place cs

/-- One number between commas. -/
def readArgument (cs : List Char) : Except Error Nat :=
  match Numeral.unsigned? Numeral.maxWord (trim cs) with
  | some n => .ok n
  | none => .error (.format (.typeArgument (String.ofList (trim cs))))

/-- The numbers between commas. -/
def readArguments (cs : List Char) : Except Error (List Nat) :=
  (cs.splitOn ',').mapM readArgument

/-- The name of a type, and what stands between the first `(` and the last `)` after it. -/
def splitParentheses (cs : List Char) : Except Error (List Char × Option (List Char)) :=
  match cs.dropWhile (· ≠ '(') with
  | [] => .ok (cs, none)
  | _ :: rest =>
    match rest.reverse.dropWhile (· ≠ ')') with
    | [] => .error (.format (.unbalancedType (String.ofList cs)))
    | _ :: inside => .ok (trim (cs.takeWhile (· ≠ '(')), some inside.reverse)

/-- The digits of a fraction of a second, at most six. -/
def readFraction (n : Nat) : Except Error Nat :=
  if n ≤ 6 then .ok n else .error (.format (.fractionDigits n))

/-- The length that a type cannot go without. -/
def readLength (name : String) (numbers : List Nat) : Except Error Nat :=
  match numbers with
  | n :: _ => .ok n
  | [] => .error (.format (.missingLength name))

/-- The type of a name with numbers, `inside` being what stands between its parentheses. -/
def ofName (name : String) (numbers : List Nat) (inside : List Char) : Except Error ColumnType :=
  let first (d : Nat) := numbers.head?.getD d
  match name with
  | "tinyint" => .ok .tinyInt
  | "smallint" => .ok .smallInt
  | "mediumint" => .ok .mediumInt
  | "int" | "integer" => .ok .int
  | "bigint" => .ok .bigInt
  | "float" => .ok .float
  | "double" | "real" => .ok .double
  | "decimal" | "numeric" =>
    let p := first 10
    let s := (numbers.drop 1).head?.getD 0
    if p = 0 ∨ 65 < p ∨ 30 < s ∨ p < s then .error (.format (.decimalShape p s))
    else .ok (.decimal p s)
  | "date" => .ok .date
  | "datetime" => .dateTime <$> readFraction (first 0)
  | "timestamp" => .timestamp <$> readFraction (first 0)
  | "time" => .time <$> readFraction (first 0)
  | "year" => .ok .year
  | "char" => .ok (.char (first 1))
  | "varchar" => .varChar <$> readLength name numbers
  | "binary" => .ok (.binary (first 1))
  | "varbinary" => .varBinary <$> readLength name numbers
  | "tinytext" => .ok .tinyText
  | "text" => .ok .text
  | "mediumtext" => .ok .mediumText
  | "longtext" => .ok .longText
  | "tinyblob" => .ok .tinyBlob
  | "blob" => .ok .blob
  | "mediumblob" => .ok .mediumBlob
  | "longblob" => .ok .longBlob
  | "json" => .ok .json
  | "enum" => .enum <$> readElements .before (trim inside)
  | "set" => do
    let elements ← readElements .before (trim inside)
    if elements.length ≤ 64 then .ok (.set elements) else .error (.format .setSize)
  | "bit" =>
    let n := first 1
    if n = 0 ∨ 64 < n then .error (.format (.bitWidth n)) else .ok (.bit n)
  | name => .error (.format (.unknownType name))

/-- **The type of a text.** -/
def parse (text : List Char) : Except Error ColumnType := do
  let (base, arguments) ← splitParentheses (trim text)
  let name := String.ofList (Text.lower base)
  let numbers ←
    if name = "enum" ∨ name = "set" then .ok []
    else match arguments with
      | none => .ok []
      | some cs => readArguments cs
  ofName name numbers (arguments.getD [])

end Tablespace.ColumnType
