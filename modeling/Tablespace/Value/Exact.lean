import Tablespace.Text.Blank
import Tablespace.Text.Numeral
import Tablespace.Text.Utf8

/-! # Exact decimals

A decimal is a sign and the digits before and after a point, of which the zeros that say nothing are
left out. So the number of digits before the point tells most of how large it is, and texts tell the
rest, whatever the numbers of digits.

* `Exact`: a decimal. `Exact.ofDigits`: that of a sign and any digits.
* `Exact.ofText?`: the decimal of digits with a point among them, signed or not.
* `Exact.compare`: the order of decimals. -/

namespace Tablespace

/-- **A decimal**: its sign, and its digits before and after the point. No zero leads the digits and
none ends them, and zero, which has no digits at all, is not negative. -/
structure Exact where
  negative : Bool
  before : List Char
  after : List Char
  digits : (before ++ after).all Char.isDigit
  head : before.head? ≠ some '0'
  last : after.getLast? ≠ some '0'
  sign : negative → before ++ after ≠ []
  deriving DecidableEq

namespace Exact

/-- Digits without the zeros that lead them. -/
def dropZeros (ds : List Char) : List Char := ds.dropWhile (· = '0')

/-- Digits without the zeros that end them. -/
def dropEndZeros (ds : List Char) : List Char := Text.dropEndWhile (· = '0') ds

theorem head?_dropZeros (ds : List Char) : (dropZeros ds).head? ≠ some '0' := by
  intro h
  have hhead := List.head?_dropWhile_not (· = '0') ds
  rw [← dropZeros, h] at hhead
  simp at hhead

theorem getLast?_dropEndZeros (ds : List Char) : (dropEndZeros ds).getLast? ≠ some '0' := by
  rw [dropEndZeros, Text.dropEndWhile, List.getLast?_reverse]
  exact head?_dropZeros ds.reverse

theorem mem_of_mem_dropZeros {c : Char} {ds : List Char} (h : c ∈ dropZeros ds) : c ∈ ds :=
  (List.dropWhile_sublist _).mem h

theorem mem_of_mem_dropEndZeros {c : Char} {ds : List Char} (h : c ∈ dropEndZeros ds) : c ∈ ds :=
  List.mem_reverse.mp (mem_of_mem_dropZeros (List.mem_reverse.mp h))

/-- **The decimal of a sign and digits** before and after the point. -/
def ofDigits (negative : Bool) (before after : List Char)
    (digits : (before ++ after).all Char.isDigit) : Exact where
  negative := negative && !(dropZeros before ++ dropEndZeros after).isEmpty
  before := dropZeros before
  after := dropEndZeros after
  digits := by
    rw [List.all_eq_true] at digits ⊢
    intro c hc
    refine digits c (List.mem_append.mpr ?_)
    exact (List.mem_append.mp hc).imp mem_of_mem_dropZeros mem_of_mem_dropEndZeros
  head := head?_dropZeros before
  last := getLast?_dropEndZeros after
  sign h hnil := by simp [hnil] at h

/-- The decimal of digits with a point among them, or before or after them, and a sign. -/
def ofBody? (negative : Bool) (cs : List Char) : Option Exact :=
  let before := cs.takeWhile (· ≠ '.')
  let after := (cs.dropWhile (· ≠ '.')).drop 1
  if before = [] ∧ after = [] then none
  else if h : (before ++ after).all Char.isDigit then some (ofDigits negative before after h)
  else none

/-- **The decimal that a text writes.** -/
def ofText? (cs : List Char) : Option Exact :=
  match cs with
  | '-' :: ds => ofBody? true ds
  | '+' :: ds => ofBody? false ds
  | _ => ofBody? false cs

/-! ### Order -/

/-- The order of digits as texts, byte by byte, a beginning before what goes on. -/
def compareTexts (ds es : List Char) : Ordering :=
  List.compareLex Ord.compare (Utf8.encode (String.ofList ds)) (Utf8.encode (String.ofList es))

/-- The order of decimals regardless of their signs: by the number of the digits before the point,
then by these digits, and then by those after it. -/
def compareMagnitude (a b : Exact) : Ordering :=
  (Ord.compare a.before.length b.before.length).then
    ((compareTexts a.before b.before).then (compareTexts a.after b.after))

/-- **The order of decimals.** -/
def compare (a b : Exact) : Ordering :=
  match a.negative, b.negative with
  | false, true => .gt
  | true, false => .lt
  | false, false => a.compareMagnitude b
  | true, true => b.compareMagnitude a

end Exact
end Tablespace
