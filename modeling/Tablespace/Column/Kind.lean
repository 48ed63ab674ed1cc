import Tablespace.Column.Charset

/-! # Column types

* `ColumnType`: what a column may hold.
* `ColumnType.fixedLength`: the bytes that a value takes, absent where they vary from value to
  value; `ColumnType.maxBytes` bounds them then.
* `ColumnType.isBig`: whether the length of a value may take two bytes. -/

namespace Tablespace

/-- **A column type.** Lengths of characters and bytes, precision and scale, the digits of a
fraction of a second and the number of bits are those that the type was declared with. -/
inductive ColumnType
  | tinyInt
  | smallInt
  | mediumInt
  | int
  | bigInt
  | float
  | double
  | decimal (precision scale : Nat)
  | date
  | dateTime (fraction : Nat)
  | timestamp (fraction : Nat)
  | time (fraction : Nat)
  | year
  | char (length : Nat)
  | varChar (length : Nat)
  | binary (length : Nat)
  | varBinary (length : Nat)
  | tinyText
  | text
  | mediumText
  | longText
  | tinyBlob
  | blob
  | mediumBlob
  | longBlob
  | json
  | enum (elements : List String)
  | set (elements : List String)
  | bit (width : Nat)
  deriving DecidableEq

/-- The bytes of a group of up to nine decimal digits. -/
def groupBytes : Nat → Nat
  | 0 => 0
  | 1 | 2 => 1
  | 3 | 4 => 2
  | 5 | 6 => 3
  | _ => 4

/-- The digits of the groups before the point: what does not fill nine comes first. -/
def wholeGroups (digits : Nat) : List Nat :=
  (if digits % 9 = 0 then [] else [digits % 9]) ++ List.replicate (digits / 9) 9

/-- The digits of the groups after the point: what does not fill nine comes last. -/
def fractionGroups (digits : Nat) : List Nat :=
  List.replicate (digits / 9) 9 ++ (if digits % 9 = 0 then [] else [digits % 9])

/-- The bytes of groups of digits. -/
def groupsBytes : List Nat → Nat
  | [] => 0
  | g :: gs => groupBytes g + groupsBytes gs

/-- The bytes of a decimal. -/
def decimalBytes (precision scale : Nat) : Nat :=
  groupsBytes (wholeGroups (precision - scale)) + groupsBytes (fractionGroups scale)

/-- The bytes of a fraction of a second of so many digits. -/
def fractionBytes : Nat → Nat
  | 1 | 2 => 1
  | 3 | 4 => 2
  | 5 | 6 => 3
  | _ => 0

/-- A quotient rounded up, but at least 1. -/
def ceilDiv (n d : Nat) : Nat := max 1 ((n + d - 1) / d)

namespace ColumnType

/-- **The bytes that every value takes**, absent where they vary. A `char` in a character set of
several bytes varies. -/
def fixedLength (t : ColumnType) (charset : Charset) : Option Nat :=
  match t with
  | .tinyInt | .year => some 1
  | .smallInt => some 2
  | .mediumInt | .date => some 3
  | .int | .float => some 4
  | .bigInt | .double => some 8
  | .decimal p s => some (decimalBytes p s)
  | .dateTime n => some (5 + fractionBytes n)
  | .timestamp n => some (4 + fractionBytes n)
  | .time n => some (3 + fractionBytes n)
  | .char n => if charset.maxBytes = 1 then some n else none
  | .binary n => some n
  | .enum elements => some (if elements.length < 256 then 1 else 2)
  | .set elements =>
    let n := ceilDiv elements.length 8
    some (if n ≤ 4 then n else 8)
  | .bit n => some (ceilDiv n 8)
  | _ => none

/-- The most bytes that a value takes. -/
def maxBytes (t : ColumnType) (charset : Charset) : Nat :=
  match t with
  | .char n | .varChar n => n * charset.maxBytes
  | .binary n | .varBinary n => n
  | .tinyText | .tinyBlob => 255
  | .text | .blob => 65535
  | .mediumText | .mediumBlob => 16777215
  | .longText | .longBlob | .json => 4294967295
  | t => (t.fixedLength charset).getD 0

/-- Types of large values, which may be stored apart from their record. -/
def isLarge : ColumnType → Bool
  | .tinyText | .text | .mediumText | .longText => true
  | .tinyBlob | .blob | .mediumBlob | .longBlob | .json => true
  | _ => false

/-- Whether the length of a value that varies may take two bytes. -/
def isBig (t : ColumnType) (charset : Charset) : Bool :=
  t.isLarge || 255 < t.maxBytes charset

/-- Types of text. -/
def isText : ColumnType → Bool
  | .char _ | .varChar _ | .tinyText | .text | .mediumText | .longText => true
  | _ => false

/-- Types of bytes that are no text in any character set. -/
def isBinary : ColumnType → Bool
  | .binary _ | .varBinary _ => true
  | .tinyBlob | .blob | .mediumBlob | .longBlob | .json => true
  | _ => false

/-- Types of integers. -/
def isInteger : ColumnType → Bool
  | .tinyInt | .smallInt | .mediumInt | .int | .bigInt => true
  | _ => false

/-- The elements of an enumeration or a set. -/
def elements? : ColumnType → Option (List String)
  | .enum l | .set l => some l
  | _ => none

/-- A text between quotes, a quote in it written twice. -/
def quoteElement (s : String) : List Char :=
  '\x27' :: s.toList.flatMap (fun c => if c = '\x27' then ['\x27', '\x27'] else [c]) ++ ['\x27']

/-- Elements between quotes, with commas between them. -/
def quoteElements (l : List String) : String :=
  String.ofList (",".toList.intercalate (l.map quoteElement))

/-- A name with an argument that is left out if it is zero. -/
def withFraction (name : String) (n : Nat) : String :=
  if n = 0 then name else s!"{name}({n})"

/-- **The text of a type.** -/
def toText : ColumnType → String
  | .tinyInt => "tinyint"
  | .smallInt => "smallint"
  | .mediumInt => "mediumint"
  | .int => "int"
  | .bigInt => "bigint"
  | .float => "float"
  | .double => "double"
  | .decimal p s => s!"decimal({p},{s})"
  | .date => "date"
  | .dateTime n => withFraction "datetime" n
  | .timestamp n => withFraction "timestamp" n
  | .time n => withFraction "time" n
  | .year => "year"
  | .char n => s!"char({n})"
  | .varChar n => s!"varchar({n})"
  | .binary n => s!"binary({n})"
  | .varBinary n => s!"varbinary({n})"
  | .tinyText => "tinytext"
  | .text => "text"
  | .mediumText => "mediumtext"
  | .longText => "longtext"
  | .tinyBlob => "tinyblob"
  | .blob => "blob"
  | .mediumBlob => "mediumblob"
  | .longBlob => "longblob"
  | .json => "json"
  | .enum l => "enum(" ++ quoteElements l ++ ")"
  | .set l => "set(" ++ quoteElements l ++ ")"
  | .bit n => s!"bit({n})"

/-! ### Lengths -/

/-- A length of one byte is enough where it may not take two. -/
theorem maxBytes_le_of_isBig {t : ColumnType} {c : Charset} (h : t.isBig c = false) :
    t.maxBytes c ≤ 255 := by
  unfold isBig at h
  rw [Bool.or_eq_false_iff, decide_eq_false_iff_not] at h
  omega

end ColumnType
end Tablespace
