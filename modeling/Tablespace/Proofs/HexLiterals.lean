import Tablespace.Proofs.PrintedLiterals

/-! # Hexadecimal literals

Bytes are shown as hexadecimal digits behind a marker. A literal of a column of bytes may be written
so, and any other text stands for its own bytes. The reader of digits takes more than it is shown:
a plus may stand in place of the first digit of a pair. It goes astray in a text that it cuts inside
a character, which no text of ASCII is. A column of text in the binary character set holds bytes and
shows them as digits too, but takes every literal for its own bytes.

* `Hex.Writes`: pairs of digits, and the bytes that they write. `Hex.Spells`: what is read as such.
* `Hex.decode?_eq_some_iff`, `Hex.Spells.read_eq`: the reader of digits takes what spells bytes.
* `Column.literal_of_isBinary`: the value of each literal of a column of bytes.
* `Column.ShowsHex`, `Column.literal_of_hexText`: the columns that show digits, and those of them
  that read them back. -/

namespace Tablespace

/-! ### Digits -/

namespace Hex

/-- **A digit of either case**, and the number that it stands for. -/
def IsDigit (c : Char) (n : Nat) : Prop := n < 16 ∧ (c = digit n ∨ c = (digit n).toUpper)

/-- **Pairs of digits**, and the bytes that they write. -/
inductive Writes : List Char → List UInt8 → Prop
  | nil : Writes [] []
  | pair {c d : Char} {m n : Nat} {cs : List Char} {l : List UInt8} (hc : IsDigit c m)
      (hd : IsDigit d n) (h : Writes cs l) : Writes (c :: d :: cs) (UInt8.ofNat (m * 16 + n) :: l)

/-- **Pairs of digits in which a plus may stand for a leading zero**, and the bytes that they
write. -/
inductive Spells : List Char → List UInt8 → Prop
  | nil : Spells [] []
  | pair {c d : Char} {m n : Nat} {cs : List Char} {l : List UInt8} (hc : IsDigit c m)
      (hd : IsDigit d n) (h : Spells cs l) : Spells (c :: d :: cs) (UInt8.ofNat (m * 16 + n) :: l)
  | plus {d : Char} {n : Nat} {cs : List Char} {l : List UInt8} (hd : IsDigit d n)
      (h : Spells cs l) : Spells ('+' :: d :: cs) (UInt8.ofNat n :: l)

theorem digit?_eq_some_of_isDigit {c : Char} {n : Nat} (h : IsDigit c n) : digit? c = some n := by
  obtain ⟨hn, rfl | rfl⟩ := h
  · exact digit?_digit hn
  · have hupper : ∀ n : Fin 16, digit? (digit n.1).toUpper = some n.1 := by decide
    exact hupper ⟨n, hn⟩

/-- Only characters up to the last small digit are digits. -/
theorem toNat_le_of_digit?_eq_some {c : Char} {n : Nat} (h : digit? c = some n) :
    c.toNat ≤ 'f'.toNat := by
  have hle : ∀ d : Char, c ≤ d → c.toNat ≤ d.toNat := fun d hd => hd
  unfold digit? at h
  split at h
  · next hc => exact (hle _ hc.2).trans (by decide)
  · split at h
    · next hc => exact hle _ hc.2
    · split at h
      · next hc => exact (hle _ hc.2).trans (by decide)
      · cases h

theorem isDigit_of_digit?_eq_some {c : Char} {n : Nat} (h : digit? c = some n) : IsDigit c n := by
  have hall : ∀ k ≤ 'f'.toNat, ∀ n ∈ digit? (Char.ofNat k),
      n < 16 ∧ (Char.ofNat k = digit n ∨ Char.ofNat k = (digit n).toUpper) := by decide
  have hc := hall c.toNat (toNat_le_of_digit?_eq_some h)
  rw [Char.ofNat_toNat] at hc
  exact hc n h

theorem digit?_eq_some_iff {c : Char} {n : Nat} : digit? c = some n ↔ IsDigit c n :=
  ⟨isDigit_of_digit?_eq_some, digit?_eq_some_of_isDigit⟩

theorem IsDigit.ne_plus {c : Char} {n : Nat} (h : IsDigit c n) : c ≠ '+' := by
  rintro rfl
  have hnone : digit? '+' = none := by decide
  rw [digit?_eq_some_iff.mpr h] at hnone
  cases hnone

theorem pair?_eq (c d : Char) : pair? c d =
    (if c = '+' then some 0 else digit? c).bind fun m =>
      (digit? d).map fun n => UInt8.ofNat (m * 16 + n) := by
  unfold pair?
  by_cases hc : c = '+'
  · rw [if_pos hc, if_pos hc]
    cases digit? d <;> rfl
  · rw [if_neg hc, if_neg hc]
    cases digit? c <;> cases digit? d <;> rfl

/-- What may stand first in a pair. -/
theorem first_eq_some_iff {c : Char} {m : Nat} : (if c = '+' then some 0 else digit? c) = some m ↔
    IsDigit c m ∨ c = '+' ∧ m = 0 := by
  by_cases hc : c = '+'
  · rw [if_pos hc, Option.some.injEq]
    constructor
    · intro hm
      exact .inr ⟨hc, hm.symm⟩
    · rintro (h | ⟨-, rfl⟩)
      · exact absurd hc h.ne_plus
      · rfl
  · rw [if_neg hc, digit?_eq_some_iff]
    exact ⟨.inl, fun h => h.resolve_right fun hp => hc hp.1⟩

theorem pair?_eq_some_iff {c d : Char} {b : UInt8} : pair? c d = some b ↔
    ∃ m n, (IsDigit c m ∨ c = '+' ∧ m = 0) ∧ IsDigit d n ∧ UInt8.ofNat (m * 16 + n) = b := by
  rw [pair?_eq]
  simp only [Option.bind_eq_some_iff, Option.map_eq_some_iff, first_eq_some_iff,
    digit?_eq_some_iff]
  constructor
  · rintro ⟨m, hm, n, hn, hb⟩
    exact ⟨m, n, hm, hn, hb⟩
  · rintro ⟨m, n, hm, hn, hb⟩
    exact ⟨m, hm, n, hn, hb⟩

theorem decode?_pair_eq_some_iff {c d : Char} {cs : List Char} {l : List UInt8} :
    decode? (c :: d :: cs) = some l ↔
      ∃ b l', pair? c d = some b ∧ decode? cs = some l' ∧ b :: l' = l := by
  rw [decode?]
  simp only [Option.bind_eq_bind, Option.bind_eq_some_iff, Option.pure_def, Option.some.injEq]
  constructor
  · rintro ⟨b, hb, l', hl, e⟩
    exact ⟨b, l', hb, hl, e⟩
  · rintro ⟨b, l', hb, hl, e⟩
    exact ⟨b, hb, l', hl, e⟩

theorem Spells.decode?_eq_some {cs : List Char} {l : List UInt8} (h : Spells cs l) :
    decode? cs = some l := by
  induction h with
  | nil => rfl
  | pair hc hd _ ih =>
    exact decode?_pair_eq_some_iff.mpr
      ⟨_, _, pair?_eq_some_iff.mpr ⟨_, _, .inl hc, hd, rfl⟩, ih, rfl⟩
  | @plus d n cs l hd _ ih =>
    refine decode?_pair_eq_some_iff.mpr
      ⟨_, _, pair?_eq_some_iff.mpr ⟨0, n, .inr ⟨rfl, rfl⟩, hd, ?_⟩, ih, rfl⟩
    rw [Nat.zero_mul, Nat.zero_add]

theorem spells_of_decode? (cs : List Char) :
    ∀ {l : List UInt8}, decode? cs = some l → Spells cs l := by
  fun_induction decode? cs with
  | case1 =>
    intro l h
    cases h
    exact .nil
  | case2 =>
    intro l h
    cases h
  | case3 c d cs ih =>
    intro l h
    obtain ⟨b, l', hb, hl, rfl⟩ := decode?_pair_eq_some_iff.mp h
    obtain ⟨m, n, hc | ⟨rfl, rfl⟩, hd, rfl⟩ := pair?_eq_some_iff.mp hb
    · exact .pair hc hd (ih hl)
    · rw [Nat.zero_mul, Nat.zero_add]
      exact .plus hd (ih hl)

/-- **What the reader of digits takes.** -/
theorem decode?_eq_some_iff {cs : List Char} {l : List UInt8} : decode? cs = some l ↔ Spells cs l :=
  ⟨spells_of_decode? cs, Spells.decode?_eq_some⟩

/-- **Digits write bytes where no plus helps to spell them.** -/
theorem writes_iff {cs : List Char} {l : List UInt8} : Writes cs l ↔ Spells cs l ∧ '+' ∉ cs := by
  constructor
  · intro h
    induction h with
    | nil => exact ⟨.nil, List.not_mem_nil⟩
    | pair hc hd _ ih =>
      refine ⟨.pair hc hd ih.1, ?_⟩
      simp only [List.mem_cons, not_or]
      exact ⟨hc.ne_plus.symm, hd.ne_plus.symm, ih.2⟩
  · rintro ⟨h, hplus⟩
    induction h with
    | nil => exact .nil
    | pair hc hd _ ih =>
      simp only [List.mem_cons, not_or] at hplus
      exact .pair hc hd (ih hplus.2.2)
    | plus => exact absurd List.mem_cons_self hplus

theorem Spells.length_eq {cs : List Char} {l : List UInt8} (h : Spells cs l) :
    cs.length = 2 * l.length := by
  induction h with
  | nil => rfl
  | pair _ _ _ ih | plus _ _ ih =>
    simp only [List.length_cons]
    omega

/-! ### Slices -/

theorem utf8Size_of_lt {c : Char} (h : c.toNat < 128) : c.utf8Size = 1 := by
  have hval : c.val ≤ 0x7F := UInt32.le_iff_toNat_le.mpr (Nat.le_of_lt_succ h)
  simp [Char.utf8Size, hval]

theorem IsDigit.utf8Size_eq {c : Char} {n : Nat} (h : IsDigit c n) : c.utf8Size = 1 := by
  obtain ⟨hn, rfl | rfl⟩ := h
  · exact utf8Size_digit hn
  · have hupper : ∀ n : Fin 16, (digit n.1).toUpper.utf8Size = 1 := by decide
    exact hupper ⟨n, hn⟩

theorem Spells.utf8Size_eq {cs : List Char} {l : List UInt8} (h : Spells cs l) :
    ∀ c ∈ cs, c.utf8Size = 1 := by
  induction h with
  | nil => exact nofun
  | pair hc hd _ ih =>
    simp only [List.forall_mem_cons]
    exact ⟨hc.utf8Size_eq, hd.utf8Size_eq, ih⟩
  | plus hd _ ih =>
    simp only [List.forall_mem_cons]
    exact ⟨by decide, hd.utf8Size_eq, ih⟩

/-- **What spells bytes is read**, slice by slice. -/
theorem Spells.read_eq {cs : List Char} {l : List UInt8} (h : Spells cs l) :
    read cs = .ok (some l) := by
  rw [read_eq_decode? h.utf8Size_eq, h.decode?_eq_some]

/-- **Any other text is left as it is**, unless a slice of it ends inside a character. -/
theorem read_of_forall_not {cs : List Char} (h : ∀ l, ¬ Spells cs l) :
    read cs = .ok none ∨ ∃ offset, read cs = .error offset ∧ ∃ c ∈ cs, 128 ≤ c.toNat := by
  have hnone : decode? cs = none := by
    rw [Option.eq_none_iff_forall_ne_some]
    exact fun l hl => h l (decode?_eq_some_iff.mp hl)
  by_cases hascii : ∀ c ∈ cs, c.toNat < 128
  · left
    rw [read_eq_decode? fun c hc => utf8Size_of_lt (hascii c hc), hnone]
  · push Not at hascii
    unfold read
    rw [hnone]
    split
    · split
      · exact .inl rfl
      · next offset _ => exact .inr ⟨offset, rfl, hascii⟩
    · exact .inl rfl

end Hex

/-! ### Bytes of a text -/

theorem Utf8.length_le_length_encode (cs : List Char) :
    cs.length ≤ (Utf8.encode (String.ofList cs)).length := by
  unfold Utf8.encode
  rw [String.toList_ofList]
  induction cs with
  | nil => exact Nat.le_refl _
  | cons c cs ih =>
    have hc := String.length_utf8EncodeChar c
    have hpos := c.utf8Size_pos
    rw [List.flatMap_cons, List.length_append, List.length_cons]
    omega

/-- Bytes are not those of a longer text. -/
theorem Utf8.encode_ne {cs : List Char} {data : List UInt8} (h : data.length < cs.length) :
    Utf8.encode (String.ofList cs) ≠ data := by
  intro e
  have hle := Utf8.length_le_length_encode cs
  rw [e] at hle
  omega

theorem Value.compare_bytes_eq_iff {l m : List UInt8} :
    (Value.bytes l).compare (.bytes m) = .eq ↔ l = m := by
  rw [Value.compare_octets (.bytes l) (.bytes m)]
  exact Std.LawfulEqOrd.compare_eq_iff_eq

/-! ### Literals of bytes -/

namespace Column
variable {c : Column} {text : String}

/-- **What a literal of bytes is written for**: the bytes that digits write behind the marker, and
the bytes of the text itself where there are no such digits. -/
def StandsFor (text : String) (v : Value) : Prop :=
  (∃ ds data, text.toList = '0' :: 'x' :: ds ∧ Hex.Writes ds data ∧ v = .bytes data) ∨
    (∀ ds data, text.toList = '0' :: 'x' :: ds → ¬ Hex.Writes ds data) ∧
      v = .bytes (Utf8.encode text)

theorem ofBinaryLiteral_of_spells {ds : List Char} {data : List UInt8} (h : Hex.Spells ds data) :
    Value.ofBinaryLiteral ('0' :: 'x' :: ds) = .ok (.bytes data) := by
  rw [Value.ofBinaryLiteral, h.read_eq]

theorem ofBinaryLiteral_of_forall_not {cs : List Char}
    (h : ∀ ds data, cs = '0' :: 'x' :: ds → ¬ Hex.Spells ds data) :
    Value.ofBinaryLiteral cs = .ok (.bytes (Utf8.encode (String.ofList cs))) ∨
      ∃ offset, Value.ofBinaryLiteral cs = .error (.stray offset) ∧ ∃ d ∈ cs, 128 ≤ d.toNat := by
  unfold Value.ofBinaryLiteral
  split
  · next ds =>
    rcases Hex.read_of_forall_not fun data => h ds data rfl with
      hread | ⟨offset, hread, d, hd, hlarge⟩
    · rw [hread]
      exact .inl rfl
    · rw [hread]
      exact .inr ⟨offset, rfl, d, by simp [hd], hlarge⟩
  · exact .inl rfl

/-- **The value of each literal of a column of bytes.** Digits that spell bytes stand for them, and
any other text for its own bytes, unless a slice of it ends inside a character. A text of ASCII has
the value that it is written for, unless a plus helps to spell bytes. -/
theorem literal_of_isBinary (hc : c.type.isBinary = true)
    (hn : Text.lower text.toList ≠ "null".toList) :
    (∀ ds data, text.toList = '0' :: 'x' :: ds → Hex.Spells ds data →
        c.literal text = .ok (.bytes data)) ∧
      ((∀ ds data, text.toList = '0' :: 'x' :: ds → ¬ Hex.Spells ds data) →
        c.literal text = .ok (.bytes (Utf8.encode text)) ∨
          ∃ offset, c.literal text = .error (.stray offset) ∧ ∃ d ∈ text.toList, 128 ≤ d.toNat) ∧
      ((∀ d ∈ text.toList, d.toNat < 128) →
        ((∃ v, c.literal text = .ok v ∧ StandsFor text v) ↔
          ∀ ds data, text.toList = '0' :: 'x' :: ds → Hex.Spells ds data → '+' ∉ ds)) := by
  have hspelled : ∀ ds data, text.toList = '0' :: 'x' :: ds → Hex.Spells ds data →
      c.literal text = .ok (.bytes data) := by
    intro ds data htext h
    rw [literal_eq_ofBinaryLiteral hc hn, htext, ofBinaryLiteral_of_spells h]
  have hother : (∀ ds data, text.toList = '0' :: 'x' :: ds → ¬ Hex.Spells ds data) →
      c.literal text = .ok (.bytes (Utf8.encode text)) ∨
        ∃ offset, c.literal text = .error (.stray offset) ∧ ∃ d ∈ text.toList, 128 ≤ d.toNat := by
    intro h
    have hread := ofBinaryLiteral_of_forall_not h
    rwa [← literal_eq_ofBinaryLiteral hc hn, String.ofList_toList] at hread
  refine ⟨hspelled, hother, fun hascii => ⟨?_, ?_⟩⟩
  · rintro ⟨v, hv, hstands⟩ ds data htext h
    have hdata : Value.bytes data = v := by
      rw [hspelled ds data htext h] at hv
      exact Except.ok.inj hv
    rcases hstands with ⟨ds', data', htext', hw, -⟩ | ⟨-, rfl⟩
    · rw [htext] at htext'
      cases htext'
      exact (Hex.writes_iff.mp hw).2
    · -- the text has more bytes than its digits spell
      have hlt : data.length < text.toList.length := by
        have hlength := h.length_eq
        rw [htext, List.length_cons, List.length_cons]
        omega
      have hne := Utf8.encode_ne hlt
      rw [String.ofList_toList] at hne
      exact absurd (Value.bytes.inj hdata).symm hne
  · intro hplus
    by_cases h : ∃ ds data, text.toList = '0' :: 'x' :: ds ∧ Hex.Spells ds data
    · obtain ⟨ds, data, htext, hs⟩ := h
      exact ⟨_, hspelled ds data htext hs,
        .inl ⟨ds, data, htext, Hex.writes_iff.mpr ⟨hs, hplus ds data htext hs⟩, rfl⟩⟩
    · have hnone : ∀ ds data, text.toList = '0' :: 'x' :: ds → ¬ Hex.Spells ds data :=
        fun ds data htext hs => h ⟨ds, data, htext, hs⟩
      rcases hother hnone with hread | ⟨-, -, d, hd, hlarge⟩
      · refine ⟨_, hread, .inr ⟨fun ds data htext hw => ?_, rfl⟩⟩
        exact hnone ds data htext (Hex.writes_iff.mp hw).1
      · exact absurd (hascii d hd) (Nat.not_lt.mpr hlarge)

/-- Digits of both cases, and a pair with a plus. -/
theorem literal_of_isBinary_plus :
    (ofType "raw" .blob).type.isBinary = true ∧
      Text.lower "0xaB+f".toList ≠ "null".toList ∧
      (ofType "raw" .blob).literal "0xaB+f" = .ok (.bytes [0xAB, 0x0F]) := by
  have hn : Text.lower "0xaB+f".toList ≠ "null".toList := by decide
  have hs : Hex.Spells "aB+f".toList [0xAB, 0x0F] := Hex.decode?_eq_some_iff.mp (by decide)
  exact ⟨rfl, hn, (literal_of_isBinary rfl hn).1 _ _ rfl hs⟩

/-- **Not every literal of bytes has the value that it is written for.** A plus is not a digit, so
that the text should stand for its own four bytes. -/
theorem not_standsFor :
    ¬ ∀ (c : Column) (text : String), c.type.isBinary = true → (∀ d ∈ text.toList, d.toNat < 128) →
      Text.lower text.toList ≠ "null".toList → ∃ v, c.literal text = .ok v ∧ StandsFor text v := by
  intro h
  have hn : Text.lower "0x+f".toList ≠ "null".toList := by decide
  have hall : "0x+f".toList.all (fun d => d.toNat < 128) = true := by decide
  have hascii : ∀ d ∈ "0x+f".toList, d.toNat < 128 := fun d hd =>
    of_decide_eq_true (List.all_eq_true.mp hall d hd)
  obtain ⟨v, hv, hstands⟩ := h (ofType "raw" (.varBinary 4)) "0x+f" rfl hascii hn
  have hread : (ofType "raw" (.varBinary 4)).literal "0x+f" = .ok (.bytes [0x0F]) := by decide
  rw [hread] at hv
  cases hv
  rcases hstands with ⟨ds, data, htext, hw, -⟩ | ⟨-, hbytes⟩
  · cases htext
    exact absurd List.mem_cons_self (Hex.writes_iff.mp hw).2
  · exact absurd hbytes (by decide)

end Column

/-! ### Columns that show digits -/

/-- Types of text that is stored as it is, without padding. -/
def ColumnType.isPlainText (t : ColumnType) : Bool :=
  match t with
  | .varChar _ | .tinyText | .text | .mediumText | .longText => true
  | _ => false

namespace Column
variable {c : Column}

/-- **Columns whose values are shown as digits**: those of bytes, and those of text that holds
bytes. -/
def ShowsHex (c : Column) : Prop :=
  c.type.isBinary = true ∨ c.type.isPlainText = true ∧ c.charset = .binary

theorem ShowsHex.decode_eq (hc : c.ShowsHex) (offset : Int) (data : List UInt8) :
    c.decode offset data = .bytes data := by
  obtain ⟨name, type, nullable, unsigned, charset⟩ := c
  rcases hc with hc | ⟨hc, hb⟩
  · cases type <;> first | rfl | cases hc
  · cases hb
    cases type <;> first | rfl | cases hc

theorem lower_hexText_ne_null (data : List UInt8) :
    Text.lower (Value.hexText data).toList ≠ "null".toList := by
  unfold Value.hexText
  rw [String.toList_ofList]
  exact Text.lower_ne_null ⟨'0', List.mem_cons_self, rfl⟩

theorem literal_of_plainText (ht : c.type.isPlainText = true) (hb : c.charset = .binary)
    {text : String} (hn : Text.lower text.toList ≠ "null".toList) :
    c.literal text = .ok (.bytes (Utf8.encode text)) := by
  have hread : c.literal? text.toList = some (.bytes (Utf8.encode text)) := by
    unfold literal?
    rw [hb, String.ofList_toList]
    cases htype : c.type <;> rw [htype] at ht <;> first | rfl | cases ht
  have hother : c.type.isBinary = false := by
    cases htype : c.type <;> rw [htype] at ht <;> first | rfl | cases ht
  exact literal_eq_ok hother hn hread

/-- **Which columns read back the digits that they show**: those of bytes. Text that holds bytes is
shown as digits too, but the digits are read for their own bytes. -/
theorem literal_of_hexText (hc : c.ShowsHex) (data : List UInt8) (offset : Int) :
    c.decode offset data = .bytes data ∧
      (c.decode offset data).toRowJson = .text (Value.hexText data) ∧
      c.literal (Value.hexText data) =
        .ok (.bytes (if c.type.isBinary then data else Utf8.encode (Value.hexText data))) ∧
      (c.ReadsBack (c.decode offset data) ↔ c.type.isBinary = true) := by
  have hdecode := hc.decode_eq offset data
  have hn := lower_hexText_ne_null data
  have hlonger : data.length < ('0' :: 'x' :: Hex.encode data).length := by
    have hlength := (Hex.decode?_eq_some_iff.mp (Hex.decode?_encode data)).length_eq
    rw [List.length_cons, List.length_cons]
    omega
  have hread : c.literal (Value.hexText data) =
      .ok (.bytes (if c.type.isBinary then data else Utf8.encode (Value.hexText data))) := by
    by_cases hbinary : c.type.isBinary = true
    · rw [if_pos hbinary, literal_eq_ofBinaryLiteral hbinary hn]
      unfold Value.hexText
      rw [String.toList_ofList, Value.ofBinaryLiteral, Hex.read_encode]
    · obtain ⟨ht, hb⟩ := hc.resolve_left hbinary
      rw [if_neg hbinary, literal_of_plainText ht hb hn]
  refine ⟨hdecode, by rw [hdecode]; rfl, hread, ?_, fun hbinary => ?_⟩
  · rintro ⟨text, w, hprinted, hw, hequal⟩
    rw [hdecode] at hprinted hequal
    -- bytes are printed in one way
    have htext : text = Value.hexText data := by
      rcases hprinted with h | h
      · cases h
      · exact (Option.some.inj (Json.string.inj h)).symm
    rw [htext, hread] at hw
    by_contra hbinary
    rw [if_neg hbinary] at hw
    cases hw
    exact Utf8.encode_ne hlonger (Value.compare_bytes_eq_iff.mp hequal)
  · rw [if_pos hbinary] at hread
    rw [hdecode]
    exact ⟨_, _, .inr rfl, hread, Value.compare_self _⟩

/-- Two bytes of a text that holds bytes, whose digits are read as six. -/
theorem literal_of_hexText_text :
    ({ ofType "key" (.varChar 10) with charset := .binary } : Column).ShowsHex ∧
      ({ ofType "key" (.varChar 10) with charset := .binary } : Column).literal "0x00ff" =
        .ok (.bytes [0x30, 0x78, 0x30, 0x30, 0x66, 0x66]) := by
  have hc : ({ ofType "key" (.varChar 10) with charset := .binary } : Column).ShowsHex :=
    .inr ⟨rfl, rfl⟩
  exact ⟨hc, (literal_of_hexText hc [0x00, 0xFF] 0).2.2.1⟩

/-- **Not every column that shows digits reads them back.** -/
theorem not_literal_of_hexText :
    ¬ ∀ (c : Column) (data : List UInt8), c.ShowsHex →
      c.literal (Value.hexText data) = .ok (.bytes data) := by
  intro h
  have hread := h { ofType "key" (.varChar 10) with charset := .binary } [0x00, 0xFF]
    (.inr ⟨rfl, rfl⟩)
  exact absurd hread (by decide)

end Column
end Tablespace
