/-! # Blanks

The characters of Unicode's property `White_Space`, and texts without the blanks around them.

* `isBlank`, `trim`: the blanks, and a text without those at its ends.
* `Bare`: a text that has none there. -/

namespace Tablespace.Text

/-- **A blank**: a character of the property `White_Space`. -/
def isBlank (c : Char) : Bool :=
  let n := c.toNat
  (0x9 ≤ n && n ≤ 0xD) || n == 0x20 || n == 0x85 || n == 0xA0 || n == 0x1680 ||
    (0x2000 ≤ n && n ≤ 0x200A) || n == 0x2028 || n == 0x2029 || n == 0x202F || n == 0x205F ||
    n == 0x3000

/-- A list without the members at its end that satisfy `p`. -/
def dropEndWhile (p : α → Bool) (l : List α) : List α := (l.reverse.dropWhile p).reverse

/-- A text without the blanks at its two ends. -/
def trim (cs : List Char) : List Char := dropEndWhile isBlank (cs.dropWhile isBlank)

/-- The text with ASCII capitals turned small. -/
def lower (cs : List Char) : List Char := cs.map Char.toLower

theorem toNat_of_isDigit {c : Char} (h : c.isDigit = true) : 48 ≤ c.toNat ∧ c.toNat ≤ 57 := by
  simpa [Char.isDigit, UInt32.le_iff_toNat_le] using h

theorem isBlank_of_isDigit {c : Char} (h : c.isDigit = true) : isBlank c = false := by
  have hc := toNat_of_isDigit h
  simp only [isBlank, Bool.or_eq_false_iff, Bool.and_eq_false_iff, decide_eq_false_iff_not,
    beq_eq_false_iff_ne]
  omega

theorem toLower_of_isDigit {c : Char} (h : c.isDigit = true) : c.toLower = c := by
  have hc := toNat_of_isDigit h
  unfold Char.toLower
  rw [dif_neg]
  simp only [UInt32.le_iff_toNat_le, ge_iff_le]
  show ¬ (65 ≤ c.toNat ∧ c.toNat ≤ 90)
  omega

theorem dropWhile_eq_self {p : α → Bool} {l : List α} (h : ∀ a ∈ l.head?, p a = false) :
    l.dropWhile p = l := by
  cases l with
  | nil => rfl
  | cons a l => rw [List.dropWhile_cons_of_neg (by simp [h a rfl])]

theorem dropEndWhile_eq_self {p : α → Bool} {l : List α} (h : ∀ a ∈ l.getLast?, p a = false) :
    dropEndWhile p l = l := by
  unfold dropEndWhile
  rw [dropWhile_eq_self, List.reverse_reverse]
  simpa using h

/-- **A text without blanks at its ends.** -/
structure Bare (cs : List Char) : Prop where
  head : ∀ c ∈ cs.head?, isBlank c = false
  last : ∀ c ∈ cs.getLast?, isBlank c = false

namespace Bare
variable {cs : List Char}

theorem trim_eq (h : Bare cs) : trim cs = cs := by
  unfold trim
  rw [dropWhile_eq_self h.head, dropEndWhile_eq_self h.last]

/-- A text without any blanks has none at its ends. -/
theorem of_forall (h : ∀ c ∈ cs, isBlank c = false) : Bare cs :=
  ⟨fun c hc => h c (List.mem_of_mem_head? hc), fun c hc => h c (List.mem_of_getLast? hc)⟩

theorem of_all (h : cs.all (fun c => !isBlank c) = true) : Bare cs :=
  of_forall fun c hc => by simpa using List.all_eq_true.mp h c hc

end Bare

end Tablespace.Text
