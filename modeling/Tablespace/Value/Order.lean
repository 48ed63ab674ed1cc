import Tablespace.Value.Basic
import Tablespace.Value.Duration
import Tablespace.Value.Exact

/-! # The order of values

Null comes first, then numbers, then times, then texts and bytes. Two integers compare as such,
integers and decimals by their digits, and any number with a floating-point number as doubles. Times
compare by their length, texts and bytes byte by byte.

* `Value.compare`: the order of values. `compareKeys`: the order of keys, in which a key that is
  a beginning of another is equal to it. -/

namespace Tablespace

namespace Value

/-- The decimal of an integer or a decimal, by the digits that write it. -/
def exactNumber? : Value → Option Exact
  | .int n => Exact.ofText? (Numeral.paddedInt 0 n)
  | .uint n => Exact.ofText? (Numeral.digits n)
  | .decimal s => Exact.ofText? s.toList
  | _ => none

/-- The double nearest to a number. -/
def double? : Value → Option UInt64
  | .int n => some (Double.ofInt n)
  | .uint n => some (Double.ofInt n)
  | .float w => some (widen w)
  | .double w => some w
  | .decimal s => Double.ofText? s.toList
  | _ => none

/-- The bytes of a text, or bytes. -/
def octets? : Value → Option (List UInt8)
  | .str s => some (Utf8.encode s)
  | .bytes data => some data
  | _ => none

/-- The place of a sort of values among the others. -/
def rank : Value → Nat
  | .null => 0
  | .int _ | .uint _ | .float _ | .double _ | .decimal _ => 1
  | .time _ => 2
  | .str _ | .bytes _ => 3

/-- The order of bytes, byte by byte, a beginning before what goes on. -/
def compareOctets (a b : List UInt8) : Ordering := List.compareLex Ord.compare a b

/-- The order of times, by their length where both can be told. -/
def compareTimes (s t : String) : Ordering :=
  match Duration.micros? s.toList, Duration.micros? t.toList with
  | some m, some n => Ord.compare m n
  | _, _ => compareOctets (Utf8.encode s) (Utf8.encode t)

/-- The order of values other than two integers or two times. -/
def compareOther (a b : Value) : Ordering :=
  match a.exactNumber?, b.exactNumber? with
  | some x, some y => x.compare y
  | _, _ =>
    match a.double?, b.double? with
    | some x, some y => Ord.compare (Double.order x) (Double.order y)
    | _, _ =>
      match a.octets?, b.octets? with
      | some x, some y => compareOctets x y
      | _, _ => Ord.compare a.rank b.rank

/-- **The order of values.** -/
def compare (a b : Value) : Ordering :=
  match a, b with
  | .null, .null => .eq
  | .int m, .int n => Ord.compare m n
  | .uint m, .uint n => Ord.compare m n
  | .int m, .uint n => Ord.compare m (n : Int)
  | .uint m, .int n => Ord.compare (m : Int) n
  | .time s, .time t => compareTimes s t
  | a, b => compareOther a b

@[simp] theorem compare_int (m n : Int) : compare (.int m) (.int n) = Ord.compare m n := rfl

@[simp] theorem compare_uint (m n : Nat) : compare (.uint m) (.uint n) = Ord.compare m n := rfl

end Value

/-- **The order of keys**: that of their first fields that differ. -/
def compareKeys : Key → Key → Ordering
  | a :: as, b :: bs => (a.compare b).then (compareKeys as bs)
  | _, _ => .eq

end Tablespace
