import Tablespace.Text.Utf8

/-! # Hexadecimal bytes

Bytes are written as two small hexadecimal digits each. A reader takes digits of either case, and a
`+` in place of the first digit of a pair, which then stands for zero. It cuts its text into slices
of two bytes, and goes astray where a slice ends inside a character.

* `Hex.encode`: the digits of bytes; `Hex.decode?`: the bytes that pairs of digits write.
* `Hex.read`: the bytes that a text writes, cut into slices. -/

namespace Tablespace.Hex

/-- The small hexadecimal digit of a number below 16. -/
def digit (n : Nat) : Char := Nat.digitChar n

/-- The two digits of a byte. -/
def pair (b : UInt8) : List Char := [digit (b.toNat / 16), digit (b.toNat % 16)]

/-- The digits of bytes. -/
def encode (l : List UInt8) : List Char := l.flatMap pair

/-- The number that a digit of either case writes. -/
def digit? (c : Char) : Option Nat :=
  if '0' ≤ c ∧ c ≤ '9' then some (c.toNat - 48)
  else if 'a' ≤ c ∧ c ≤ 'f' then some (c.toNat - 87)
  else if 'A' ≤ c ∧ c ≤ 'F' then some (c.toNat - 55)
  else none

/-- The byte that a pair of digits writes, a `+` standing for a leading zero. -/
def pair? (c d : Char) : Option UInt8 := do
  let hi ← if c = '+' then some 0 else digit? c
  let lo ← digit? d
  return UInt8.ofNat (hi * 16 + lo)

/-- The bytes that pairs of digits write. -/
def decode? : List Char → Option (List UInt8)
  | [] => some []
  | [_] => none
  | c :: d :: rest => do
    let b ← pair? c d
    let l ← decode? rest
    return b :: l

/-- The byte offset of a slice of two bytes that ends inside a character, if no slice before it is
other than a pair of digits. -/
def stray? (offset : Nat) : List Char → Option Nat
  | [] => none
  | [c] => if c.utf8Size ≤ 2 then none else some offset
  | c :: d :: rest =>
    -- a slice is one character of two bytes, or else two characters of one byte each
    if c.utf8Size = 2 then none
    else if c.utf8Size = 1 ∧ d.utf8Size = 1 then
      if (pair? c d).isSome then stray? (offset + 2) rest else none
    else some offset

/-- **The bytes that a text writes**, cut into slices of two bytes. The error is the offset of a
slice that ends inside a character. -/
def read (cs : List Char) : Except Nat (Option (List UInt8)) :=
  if (Utf8.encode (String.ofList cs)).length % 2 = 0 then
    match stray? 0 cs with
    | none => .ok (decode? cs)
    | some offset => .error offset
  else .ok none

theorem digit?_digit {n : Nat} (h : n < 16) : digit? (digit n) = some n := by
  have : ∀ n : Fin 16, digit? (digit n.1) = some n.1 := by decide
  exact this ⟨n, h⟩

theorem digit_ne_plus {n : Nat} (h : n < 16) : digit n ≠ '+' := by
  have : ∀ n : Fin 16, digit n.1 ≠ '+' := by decide
  exact this ⟨n, h⟩

theorem pair?_pair (b : UInt8) : pair? (digit (b.toNat / 16)) (digit (b.toNat % 16)) = some b := by
  have hb : b.toNat < 256 := b.toNat_lt
  unfold pair?
  rw [if_neg (digit_ne_plus (by omega)), digit?_digit (by omega), digit?_digit (by omega)]
  show some (UInt8.ofNat _) = some b
  rw [Nat.div_add_mod' b.toNat 16, UInt8.ofNat_toNat]

/-- **Reading undoes writing.** -/
theorem decode?_encode (l : List UInt8) : decode? (encode l) = some l := by
  induction l with
  | nil => rfl
  | cons b l ih =>
    show decode? (digit _ :: digit _ :: encode l) = _
    rw [decode?, pair?_pair, ih]; rfl

/-! ### Slices -/

theorem decode?_of_odd (cs : List Char) (h : cs.length % 2 ≠ 0) : decode? cs = none := by
  fun_induction decode? cs with
  | case1 => exact absurd rfl h
  | case2 => rfl
  | case3 c d rest ih =>
    have hrest : decode? rest = none := ih (by simp only [List.length_cons] at h; omega)
    rw [hrest]
    cases pair? c d <;> rfl

/-- No slice ends inside a character of one byte. -/
theorem stray?_eq_none (offset : Nat) (cs : List Char) (h : ∀ c ∈ cs, c.utf8Size = 1) :
    stray? offset cs = none := by
  fun_induction stray? offset cs with
  | case1 | case2 | case4 | case6 => rfl
  | case3 offset c hc => exact absurd (h c (by simp)) (by omega)
  | case5 offset c d rest hc hone hpair ih => exact ih fun e he => h e (by simp [he])
  | case7 offset c d rest hc hone => exact absurd ⟨h c (by simp), h d (by simp)⟩ hone

/-- **A text of characters of one byte** is cut into pairs of them. -/
theorem read_eq_decode? {cs : List Char} (h : ∀ c ∈ cs, c.utf8Size = 1) :
    read cs = .ok (decode? cs) := by
  unfold read
  rw [Utf8.length_encode_ofList h, stray?_eq_none 0 cs h]
  split
  · rfl
  · next hodd => rw [decode?_of_odd cs hodd]

theorem utf8Size_digit {n : Nat} (h : n < 16) : (digit n).utf8Size = 1 := by
  have : ∀ n : Fin 16, (digit n.1).utf8Size = 1 := by decide
  exact this ⟨n, h⟩

/-- **Reading undoes writing**, slice by slice. -/
theorem read_encode (l : List UInt8) : read (encode l) = .ok (some l) := by
  rw [read_eq_decode?, decode?_encode]
  intro c hc
  obtain ⟨b, -, hb⟩ := List.mem_flatMap.mp hc
  have hlt : b.toNat < 256 := b.toNat_lt
  simp only [pair, List.mem_cons, List.not_mem_nil, or_false] at hb
  rcases hb with rfl | rfl
  · exact utf8Size_digit (by omega)
  · exact utf8Size_digit (by omega)

end Tablespace.Hex
