import Tablespace.Json.Basic

/-! # JSON tokens

* `Json.Token`: marks, strings, numerals and words.
* `Json.tokens?`: the tokens of a text, absent where a part of the text starts none. -/

namespace Tablespace.Json

/-- **A token**: one of the six marks, or a value that nothing nests in. -/
inductive Token
  | mark (c : Char)
  | scalar (v : Json)

/-- The blanks that may stand between tokens. -/
def isSpace (c : Char) : Bool := c = ' ' || c = '\n' || c = '\t' || c = '\r'

/-- The UTF-16 unit that four hexadecimal digits of an escape write, and the rest. -/
def unit? : List Char → Option (Nat × List Char)
  | a :: b :: c :: d :: rest => do
    let a ← Hex.digit? a
    let b ← Hex.digit? b
    let c ← Hex.digit? c
    let d ← Hex.digit? d
    return (((a * 16 + b) * 16 + c) * 16 + d, rest)
  | _ => none

/-- The character that a letter after a backslash stands for. -/
def escape? (c : Char) : Option Char :=
  match c with
  | '"' => some '"'
  | '\\' => some '\\'
  | '/' => some '/'
  | 'b' => some '\x08'
  | 'f' => some '\x0c'
  | 'n' => some '\n'
  | 'r' => some '\r'
  | 't' => some '\t'
  | _ => none

/-- The UTF-16 units of a string up to its closing delimiter, and what follows it. -/
def units? : List Char → Option (List Nat × List Char)
  | [] => none
  | '"' :: rest => some ([], rest)
  | '\\' :: 'u' :: a :: b :: c :: d :: rest => do
    let (n, _) ← unit? [a, b, c, d]
    let (l, rest) ← units? rest
    return (n :: l, rest)
  | '\\' :: e :: rest => do
    let c ← escape? e
    let (l, rest) ← units? rest
    return (c.toNat :: l, rest)
  | c :: rest =>
    if c.toNat < 0x20 then none
    else do
      let (l, rest) ← units? rest
      return (c.toNat :: l, rest)

/-- The text of UTF-16 units, a character beyond them standing for itself, absent where half of a
surrogate pair stands alone. -/
def ofUnits? : List Nat → Option (List Char)
  | [] => some []
  | [a] => if 0xD800 ≤ a ∧ a < 0xE000 then none else some [Char.ofNat a]
  | a :: b :: rest =>
    if 0xD800 ≤ a ∧ a < 0xDC00 then
      if 0xDC00 ≤ b ∧ b < 0xE000 then
        (ofUnits? rest).map (Char.ofNat ((a - 0xD800) * 0x400 + (b - 0xDC00) + 0x10000) :: ·)
      else none
    else if 0xDC00 ≤ a ∧ a < 0xE000 then none
    else (ofUnits? (b :: rest)).map (Char.ofNat a :: ·)

/-- Whether characters are a numeral: an integer without needless zeros, and then a fraction and
an exponent where they are given. -/
def isNumeral (cs : List Char) : Bool :=
  let body := match cs with | '-' :: r => r | _ => cs
  let whole := body.takeWhile Char.isDigit
  let rest := body.dropWhile Char.isDigit
  let (fraction, rest) := match rest with
    | '.' :: r => (some (r.takeWhile Char.isDigit), r.dropWhile Char.isDigit)
    | _ => (none, rest)
  let exponent := match rest with
    | [] => true
    | c :: r =>
      let ds := match r with | '+' :: ds => ds | '-' :: ds => ds | _ => r
      (c = 'e' || c = 'E') && !ds.isEmpty && ds.all Char.isDigit
  !whole.isEmpty && (whole.length = 1 || whole.head? ≠ some '0') && fraction ≠ some [] && exponent

/-- A character that may stand in a numeral or a word. -/
def isWordChar (c : Char) : Bool := c.isAlphanum || c = '+' || c = '-' || c = '.'

/-- The value of a numeral or a word. -/
def word? (cs : List Char) : Option Json :=
  if cs = "null".toList then some .null
  else if cs = "true".toList then some (.bool true)
  else if cs = "false".toList then some (.bool false)
  else if isNumeral cs then some (.number (String.ofList cs))
  else none

/-- The token that a text starts with, and the rest. -/
def token? : List Char → Option (Token × List Char)
  | [] => none
  | '"' :: rest => do
    let (l, rest) ← units? rest
    return (.scalar (.string ((ofUnits? l).map String.ofList)), rest)
  | c :: rest =>
    if "[]\x7b\x7d:,".toList.contains c then some (.mark c, rest)
    else do
      let v ← word? ((c :: rest).takeWhile isWordChar)
      return (.scalar v, (c :: rest).dropWhile isWordChar)

theorem length_of_units? {cs rest : List Char} {l : List Nat} (h : units? cs = some (l, rest)) :
    rest.length < cs.length := by
  fun_induction units? cs generalizing l rest with
  | case1 => simp at h
  | case2 r => simp at h; simp [← h.2]
  | case3 a b c d r ih =>
    simp only [Option.bind_eq_bind, Option.bind_eq_some_iff] at h
    obtain ⟨⟨n, _⟩, -, ⟨l', r'⟩, h', e⟩ := h
    have := ih h'
    simp only [Option.pure_def, Option.some.injEq, Prod.mk.injEq] at e
    simp only [List.length_cons, ← e.2]; omega
  | case4 e r _ ih =>
    simp only [Option.bind_eq_bind, Option.bind_eq_some_iff] at h
    obtain ⟨c, -, ⟨l', r'⟩, h', e⟩ := h
    have := ih h'
    simp only [Option.pure_def, Option.some.injEq, Prod.mk.injEq] at e
    simp only [List.length_cons, ← e.2]; omega
  | case5 => simp at h
  | case6 c r _ _ _ _ ih =>
    simp only [Option.bind_eq_bind, Option.bind_eq_some_iff] at h
    obtain ⟨⟨l', r'⟩, h', e⟩ := h
    have := ih h'
    simp only [Option.pure_def, Option.some.injEq, Prod.mk.injEq] at e
    simp only [List.length_cons, ← e.2]; omega

theorem length_of_token? {cs rest : List Char} {t : Token} (h : token? cs = some (t, rest)) :
    rest.length < cs.length := by
  unfold token? at h
  split at h
  · cases h
  · simp only [Option.bind_eq_bind, Option.bind_eq_some_iff] at h
    obtain ⟨⟨l, r⟩, h', e⟩ := h
    have := length_of_units? h'
    simp only [Option.pure_def, Option.some.injEq, Prod.mk.injEq] at e
    simp only [List.length_cons, ← e.2]; omega
  · next c r _ =>
    split at h
    · simp only [Option.some.injEq, Prod.mk.injEq] at h; simp [← h.2]
    · simp only [Option.bind_eq_bind, Option.bind_eq_some_iff] at h
      obtain ⟨v, hv, e⟩ := h
      simp only [Option.pure_def, Option.some.injEq, Prod.mk.injEq] at e
      rw [← e.2]
      by_cases hc : isWordChar c = true
      · rw [List.dropWhile_cons_of_pos hc, List.length_cons]
        have := (List.dropWhile_suffix isWordChar (l := r)).length_le
        omega
      · rw [List.takeWhile_cons_of_neg hc] at hv
        simp [word?, isNumeral] at hv

/-- **The tokens of a text.** -/
def tokens? (cs : List Char) : Option (List Token) :=
  match _hd : cs.dropWhile isSpace with
  | [] => some []
  | c :: rest =>
    match _h : token? (c :: rest) with
    | none => none
    | some (t, rest') => (tokens? rest').map (t :: ·)
termination_by cs.length
decreasing_by
  have h1 := length_of_token? _h
  have h2 := (List.dropWhile_suffix isSpace (l := cs)).length_le
  rw [_hd] at h2
  omega

end Tablespace.Json
