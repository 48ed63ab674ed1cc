/-! # UTF-8

* `encode`: the UTF-8 bytes of a text.
* `decode`: the text of any bytes. A part that no character starts with is replaced: each longest
  beginning of a character, or else a single byte, gives one `U+FFFD`.
* `decode_encode`: decoding undoes encoding. -/

namespace Tablespace.Utf8

/-- The UTF-8 bytes of a text. -/
def encode (s : String) : List UInt8 := s.toList.flatMap String.utf8EncodeChar

/-- Characters of one byte are as many bytes. -/
theorem length_encode_ofList {cs : List Char} (h : ∀ c ∈ cs, c.utf8Size = 1) :
    (encode (String.ofList cs)).length = cs.length := by
  unfold encode
  rw [String.toList_ofList]
  induction cs with
  | nil => rfl
  | cons c cs ih =>
    have hc : (String.utf8EncodeChar c).length = 1 := by
      rw [String.length_utf8EncodeChar]
      exact h c List.mem_cons_self
    rw [List.flatMap_cons, List.length_append, hc, ih fun d hd => h d (List.mem_cons_of_mem _ hd),
      List.length_cons]
    omega

/-- The character that the bytes start with, if they start with a whole one. -/
def head? (l : List UInt8) : Option Char := (l.take 4).toByteArray.utf8DecodeChar? 0

/-- A byte that goes on with a character. -/
def isTail (b : UInt8) : Bool := 0x80 ≤ b && b < 0xC0

/-- Whether `b` may follow the first byte `a` of a character of three or four bytes. -/
def maySecond (a b : UInt8) : Bool :=
  if a = 0xE0 then 0xA0 ≤ b && b < 0xC0
  else if a = 0xED then 0x80 ≤ b && b < 0xA0
  else if a = 0xF0 then 0x90 ≤ b && b < 0xC0
  else if a = 0xF4 then 0x80 ≤ b && b < 0x90
  else 0xE1 ≤ a && a < 0xF4 && isTail b

/-- **The length of an ill-formed part**: the longest beginning of a character, at least 1. -/
def illFormed : List UInt8 → Nat
  | a :: b :: rest =>
    if maySecond a b then
      if 0xF0 ≤ a && (rest.head?.map isTail).getD false then 3 else 2
    else 1
  | _ => 1

theorem illFormed_pos (l : List UInt8) : 0 < illFormed l := by
  unfold illFormed; split
  · split
    · split <;> omega
    · omega
  · omega

/-- The characters of any bytes. -/
def decodeChars (l : List UInt8) : List Char :=
  match l with
  | [] => []
  | a :: rest =>
    match head? (a :: rest) with
    | some c => c :: decodeChars ((a :: rest).drop c.utf8Size)
    | none => '\uFFFD' :: decodeChars ((a :: rest).drop (illFormed (a :: rest)))
termination_by l.length
decreasing_by
  · have := c.utf8Size_pos; simp only [List.length_drop, List.length_cons]; omega
  · have := illFormed_pos (a :: rest); simp only [List.length_drop, List.length_cons]; omega

/-- **The text of any bytes**, ill-formed parts replaced. -/
def decode (l : List UInt8) : String := String.ofList (decodeChars l)

/-- A character of Latin-1 for each byte. -/
def ofLatin1 (l : List UInt8) : String := String.ofList (l.map fun b => Char.ofNat b.toNat)

/-! ### Decoding undoes encoding -/

theorem toByteArray_append (l m : List UInt8) :
    (l ++ m).toByteArray = l.toByteArray ++ m.toByteArray := by
  simp

theorem head?_encode (c : Char) (l : List UInt8) :
    head? (String.utf8EncodeChar c ++ l) = some c := by
  have h : (String.utf8EncodeChar c).length ≤ 4 := by
    rw [String.length_utf8EncodeChar]; exact c.utf8Size_le_four
  unfold head?
  rw [List.take_append, List.take_of_length_le h, toByteArray_append]
  exact ByteArray.utf8DecodeChar?_utf8EncodeChar_append

theorem decodeChars_append (c : Char) (l : List UInt8) :
    decodeChars (String.utf8EncodeChar c ++ l) = c :: decodeChars l := by
  have hl := String.length_utf8EncodeChar c
  have hp := c.utf8Size_pos
  cases he : String.utf8EncodeChar c ++ l with
  | nil =>
    have := congrArg List.length he
    simp only [List.length_append, List.length_nil] at this
    omega
  | cons a rest =>
    rw [decodeChars, ← he, head?_encode]
    simp only
    rw [List.drop_append_of_le_length (by omega), ← hl, List.drop_length, List.nil_append]

theorem decodeChars_flatMap (cs : List Char) :
    decodeChars (cs.flatMap String.utf8EncodeChar) = cs := by
  induction cs with
  | nil => rw [List.flatMap_nil, decodeChars]
  | cons c cs ih => rw [List.flatMap_cons, decodeChars_append, ih]

/-- **Decoding undoes encoding.** -/
theorem decode_encode (s : String) : decode (encode s) = s := by
  unfold decode encode; rw [decodeChars_flatMap, String.ofList_toList]

end Tablespace.Utf8
