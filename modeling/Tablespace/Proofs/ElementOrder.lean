import Tablespace.Proofs.StorageOrder

/-! # Elements in the order of their numbers

Enumerations and sets are stored as numbers and read as texts. Pages are sorted by the numbers, and
keys are compared as the texts: so whether a key that is made up of elements can be searched for is
a matter of how the elements were declared. An enumeration has to declare its elements in the order
of their bytes. Of a set, which writes commas between its elements, no more than two can be declared
at all, and the second of two has to go on from the first with a byte below the comma.

* `Column.IsElement`, `Column.SortsAsStored`: stored elements, and whether their texts are in the
  order of their bytes.
* `Value.chosen`: the elements of a mask. `Value.GoesOnBelowComma`: what the second element of a set
  has to be.
* `Column.exists_decode_eq_intercalate`: what stored elements are read as.
* `Column.sortsAsStored_iff`: the declarations whose elements are in the order of their numbers. -/

namespace Tablespace

/-- The bytes of a text come before those of another. -/
def Value.Precedes (s t : String) : Prop :=
  compareOctets (Utf8.encode s) (Utf8.encode t) = .lt

namespace Column

/-- The numbers of the elements of an enumeration, zero among them, or the masks of a set. -/
def elementNumbers (c : Column) : Nat :=
  match c.type with
  | .enum elements => elements.length + 1
  | .set elements => 2 ^ elements.length
  | _ => 0

/-- **Stored elements**: as many bytes as the type takes, of a number that stands for elements. -/
structure IsElement (c : Column) (bytes : List UInt8) : Prop where
  size : c.fixedLength = some bytes.length
  known : bigEndian bytes < c.elementNumbers

/-- **The texts of stored elements are in the order of their bytes.** -/
def SortsAsStored (c : Column) : Prop :=
  ∀ offset a b, c.IsElement a → c.IsElement b →
    (c.decode offset a).compare (c.decode offset b) = Value.compareOctets a b

end Column

namespace Value

variable {s t u : String}

theorem Precedes.trans (hst : Precedes s t) (htu : Precedes t u) : Precedes s u :=
  @Std.TransCmp.lt_trans (List UInt8) Ord.compare _ _ _ _ hst htu

theorem Precedes.asymm (h : Precedes s t) : ¬ Precedes t s := fun h' => by
  have hself := h.trans h'
  have heq : Ord.compare (Utf8.encode s) (Utf8.encode s) = .eq :=
    Std.LawfulEqOrd.compare_eq_iff_eq.mpr rfl
  exact absurd (heq.symm.trans hself) (by decide)

/-- Texts that go up by each step go up. -/
theorem precedes_of_steps {text : Nat → String} {count : Nat}
    (h : ∀ k, k + 1 < count → Precedes (text k) (text (k + 1))) {m n : Nat} (hmn : m < n)
    (hn : n < count) : Precedes (text m) (text n) := by
  induction hmn with
  | refl => exact h m hn
  | step _ ih => exact (ih (by omega)).trans (h _ hn)

theorem precedes_empty (h : t ≠ "") : Precedes "" t := by
  have hlist : t.toList ≠ [] := fun he => h (String.toList_inj.mp he)
  obtain ⟨c, cs, hcs⟩ := List.exists_cons_of_ne_nil hlist
  obtain ⟨b, bs, hb⟩ := List.exists_cons_of_ne_nil (String.utf8EncodeChar_ne_nil (c := c))
  have hencode : Utf8.encode t = b :: (bs ++ octets cs) := by
    rw [Utf8.encode, hcs, List.flatMap_cons, hb]
    rfl
  show Ord.compare (Utf8.encode "") (Utf8.encode t) = .lt
  rw [hencode]
  exact List.compare_nil_cons

end Value

namespace Column

/-! ### Numbers and their texts -/

/-- **Elements sort as stored** if their texts go up with their numbers. -/
theorem sortsAsStored_iff_precedes {c : Column} {width : Nat} (text : Nat → String)
    (hwidth : c.fixedLength = some width)
    (hdecode : ∀ offset bytes, c.IsElement bytes →
      c.decode offset bytes = .str (text (bigEndian bytes))) :
    c.SortsAsStored ↔ ∀ m n, m < n → n < c.elementNumbers → n < Nat.pow 256 width →
      Value.Precedes (text m) (text n) := by
  have hlength : ∀ {bytes}, c.IsElement bytes → bytes.length = width := fun h =>
    (Option.some.inj (hwidth.symm.trans h.size)).symm
  constructor
  · intro h m n hmn hn hpow
    have hm := bigEndian_bytesOf (Nat.lt_trans hmn hpow)
    have hn' := bigEndian_bytesOf hpow
    have stored : ∀ k, k < c.elementNumbers → bigEndian (bytesOf width k) = k →
        c.IsElement (bytesOf width k) := fun k hk hb =>
      ⟨by rw [hwidth, length_bytesOf], by rw [hb]; exact hk⟩
    have ha := stored m (Nat.lt_trans hmn hn) hm
    have hb := stored n hn hn'
    have hcompare := h 0 _ _ ha hb
    rw [hdecode 0 _ ha, hdecode 0 _ hb, hm, hn'] at hcompare
    refine hcompare.trans ?_
    show Ord.compare (bytesOf width m) (bytesOf width n) = .lt
    rw [compare_bigEndian (by rw [length_bytesOf, length_bytesOf]), hm, hn']
    exact compare_lt_iff_lt.mpr hmn
  · intro h offset a b ha hb
    have hl : a.length = b.length := (hlength ha).trans (hlength hb).symm
    have hpow : ∀ {bytes}, c.IsElement bytes → bigEndian bytes < Nat.pow 256 width :=
      fun {bytes} hi => by rw [← hlength hi]; exact bigEndian_lt bytes
    rw [hdecode offset a ha, hdecode offset b hb]
    show Ord.compare (Utf8.encode _) (Utf8.encode _) = Ord.compare a b
    rw [compare_bigEndian hl]
    rcases lt_trichotomy (bigEndian a) (bigEndian b) with hlt | heq | hgt
    · rw [compare_lt_iff_lt.mpr hlt]
      exact h _ _ hlt hb.known (hpow hb)
    · rw [heq, compare_eq_iff_eq.mpr rfl]
      exact Std.LawfulEqOrd.compare_eq_iff_eq.mpr rfl
    · rw [compare_gt_iff_gt.mpr hgt, Std.OrientedOrd.eq_swap (α := List UInt8)]
      exact congrArg Ordering.swap (h _ _ hgt ha.known (hpow ha))

/-! ### Enumerations -/

variable {c : Column} {elements : List String}

/-- The elements of an enumeration that have a number of two bytes. -/
def numbered (elements : List String) : List String := elements.take 65535

theorem decode_enum (htype : c.type = .enum elements) (offset : Int) {bytes : List UInt8}
    (h : c.IsElement bytes) :
    c.decode offset bytes = .str (("" :: elements).getD (bigEndian bytes) "") := by
  have hsize : bytes.length = 1 ∨ bytes.length = 2 := by
    have hsize := h.size
    rw [fixedLength, htype, ColumnType.fixedLength, Option.some.injEq] at hsize
    split at hsize <;> omega
  have hknown : bigEndian bytes < elements.length + 1 := by
    have hknown := h.known
    rwa [elementNumbers, htype] at hknown
  rw [decode, htype]
  show Value.ofEnum elements bytes = _
  rw [Value.ofEnum, if_pos hsize]
  cases hn : bigEndian bytes with
  | zero => rfl
  | succ n =>
    have hlt : n < elements.length := by omega
    simp [List.getElem?_eq_getElem hlt]

/-- **An enumeration sorts as stored** if its elements are declared in the order of their bytes,
after the empty text. -/
theorem sortsAsStored_enum_iff (htype : c.type = .enum elements) :
    c.SortsAsStored ↔ ("" :: numbered elements).Pairwise Value.Precedes := by
  have hwidth : c.fixedLength = some (if elements.length < 256 then 1 else 2) := by
    rw [fixedLength, htype]
    rfl
  have hnumbers : c.elementNumbers = elements.length + 1 := by rw [elementNumbers, htype]
  -- the numbers that fit the bytes are those of the elements with a number
  have hfit : ∀ n, n < ("" :: numbered elements).length ↔ n < elements.length + 1 ∧
      n < Nat.pow 256 (if elements.length < 256 then 1 else 2) := by
    intro n
    have hone : Nat.pow 256 1 = 256 := rfl
    have htwo : Nat.pow 256 2 = 65536 := rfl
    rw [List.length_cons, numbered, List.length_take]
    split
    · rw [hone]
      omega
    · rw [htwo]
      omega
  have htext : ∀ n (hn : n < ("" :: numbered elements).length),
      ("" :: elements).getD n "" = ("" :: numbered elements)[n] := by
    intro n hn
    cases n with
    | zero => rfl
    | succ n =>
      have hlt : n < (elements.take 65535).length := by simpa [numbered] using hn
      have hlt' : n < elements.length := by
        rw [List.length_take] at hlt
        omega
      simp [numbered, hlt']
  rw [sortsAsStored_iff_precedes (fun n => ("" :: elements).getD n "") hwidth
    fun offset _ => decode_enum htype offset, List.pairwise_iff_getElem, hnumbers]
  constructor
  · intro h m n hm hn hmn
    rw [← htext m hm, ← htext n hn]
    exact h m n hmn ((hfit n).mp hn).1 ((hfit n).mp hn).2
  · intro h m n hmn hn hpow
    have hn' := (hfit n).mpr ⟨hn, hpow⟩
    have hm' := Nat.lt_trans hmn hn'
    rw [htext m hm', htext n hn']
    exact h m n hm' hn' hmn

end Column

/-! ### Sets -/

namespace Value

/-- The elements of a mask, lowest bit first. -/
def chosen (elements : List String) (mask : Nat) : List String :=
  (elements.zipIdx.filter fun e => mask.testBit e.2).map Prod.fst

/-- The text of the elements of a mask. -/
def maskText (elements : List String) (mask : Nat) : String :=
  ",".intercalate (chosen elements mask)

theorem chosen_cons (s : String) (l : List String) (mask : Nat) :
    chosen (s :: l) mask =
      if mask.testBit 0 then s :: chosen l (mask / 2) else chosen l (mask / 2) := by
  have hrest : ((l.zipIdx 1).filter fun e => mask.testBit e.2).map Prod.fst =
      chosen l (mask / 2) := by
    rw [List.zipIdx_succ, List.filter_map, List.map_map]
    simp only [chosen, Function.comp_def, Nat.testBit_succ]
  rw [← hrest, chosen, List.zipIdx_cons, List.filter_cons]
  split <;> rfl

theorem chosen_zero (l : List String) : chosen l 0 = [] := by
  induction l with
  | nil => rfl
  | cons s l ih => rw [chosen_cons, Nat.zero_testBit, Nat.zero_div, ih]; rfl

theorem encode_append (s t : String) : Utf8.encode (s ++ t) = Utf8.encode s ++ Utf8.encode t := by
  simp [Utf8.encode]

/-- The bytes of two elements with a comma between them. -/
theorem encode_pair (s t : String) :
    Utf8.encode (",".intercalate [s, t]) = Utf8.encode s ++ 0x2C :: Utf8.encode t := by
  have hpair : ",".intercalate [s, t] = s ++ "," ++ t := rfl
  rw [hpair, encode_append, encode_append, List.append_assoc]
  rfl

/-- **A text goes on from another** with a byte below the comma. -/
def GoesOnBelowComma (s t : String) : Prop :=
  ∃ b l, Utf8.encode t = Utf8.encode s ++ b :: l ∧ b < 0x2C

/-- What lies between a text and a continuation of it goes on from it as well, from below the
continuation. -/
theorem goes_on_of_between {l m rest : List UInt8} (hlt : Ord.compare l m = .lt)
    (hgt : Ord.compare m (l ++ rest) = .lt) :
    ∃ b k, m = l ++ b :: k ∧ Ord.compare (b :: k) rest = .lt := by
  induction l generalizing m with
  | nil =>
    cases m with
    | nil => cases hlt
    | cons b k => exact ⟨b, k, rfl, hgt⟩
  | cons x l ih =>
    cases m with
    | nil => cases hlt
    | cons y m =>
      rw [List.compare_cons_cons] at hlt
      rw [List.cons_append, List.compare_cons_cons] at hgt
      cases hxy : Ord.compare x y with
      | lt =>
        rw [Std.OrientedOrd.eq_swap, hxy] at hgt
        cases hgt
      | eq =>
        obtain rfl := Std.LawfulEqOrd.compare_eq_iff_eq.mp hxy
        rw [hxy] at hlt hgt
        obtain ⟨b, k, rfl, hb⟩ := ih hlt hgt
        exact ⟨b, k, rfl, hb⟩
      | gt =>
        rw [hxy] at hlt
        cases hlt

/-- Only a comma is encoded with the byte of the comma. -/
theorem comma_of_mem {c : Char} (h : 0x2C ∈ String.utf8EncodeChar c) : c = ',' := by
  have of_byte : ∀ n, (0x2C : UInt8) = UInt8.ofNat n → n % 256 = 0x2C := fun n hn => by
    simpa using (congrArg UInt8.toNat hn).symm
  simp only [String.utf8EncodeChar] at h
  split at h
  · have hc := of_byte _ (List.mem_singleton.mp h)
    refine Char.toNat_inj.mp ?_
    show c.val.toNat = 0x2C
    omega
  · split at h
    · simp only [List.mem_cons, List.not_mem_nil, or_false] at h
      rcases h with h | h <;> have hc := of_byte _ h <;> omega
    · split at h
      · simp only [List.mem_cons, List.not_mem_nil, or_false] at h
        rcases h with h | h | h <;> have hc := of_byte _ h <;> omega
      · simp only [List.mem_cons, List.not_mem_nil, or_false] at h
        rcases h with h | h | h | h <;> have hc := of_byte _ h <;> omega

theorem comma_not_mem_encode {s : String} (h : ',' ∉ s.toList) : 0x2C ∉ Utf8.encode s := by
  intro hmem
  obtain ⟨c, hc, hb⟩ := List.mem_flatMap.mp hmem
  exact h (comma_of_mem hb ▸ hc)

/-- The second of two elements goes on below the comma if it is above the first, but not above both
of them. -/
theorem goesOnBelowComma_of {s t : String} (ht : ',' ∉ t.toList) (hlt : Precedes s t)
    (hgt : Precedes t (",".intercalate [s, t])) : GoesOnBelowComma s t := by
  unfold Precedes at hgt
  rw [encode_pair] at hgt
  obtain ⟨b, l, hl, hb⟩ := goes_on_of_between hlt hgt
  refine ⟨b, l, hl, ?_⟩
  have hne : b ≠ 0x2C := by
    rintro rfl
    refine comma_not_mem_encode ht ?_
    rw [hl]
    exact List.mem_append_right _ List.mem_cons_self
  rw [List.compare_cons_cons] at hb
  have hle : (Ord.compare b 0x2C).isLE := by
    cases h : Ord.compare b 0x2C with
    | lt | eq => rfl
    | gt => rw [h] at hb; cases hb
  rw [UInt8.compare_eq_toNat_compare_toNat, Nat.isLE_compare] at hle
  have hne' : b.toNat ≠ (0x2C : UInt8).toNat := fun h => hne (UInt8.toNat_inj.mp h)
  exact UInt8.lt_iff_toNat_lt.mpr (by omega)

/-- What goes on from a text below the comma is between it and what goes on with the comma. -/
theorem GoesOnBelowComma.between {s t : String} (h : GoesOnBelowComma s t) (u : String) :
    Precedes s t ∧ Precedes t (",".intercalate [s, u]) := by
  obtain ⟨b, l, hl, hb⟩ := h
  have hb' : Ord.compare b 0x2C = .lt := by
    rw [UInt8.compare_eq_toNat_compare_toNat]
    exact compare_lt_iff_lt.mpr (UInt8.lt_iff_toNat_lt.mp hb)
  constructor
  · show Ord.compare (Utf8.encode s) (Utf8.encode t) = .lt
    have h := compare_append_left (Utf8.encode s) [] (b :: l)
    rw [List.append_nil, List.compare_nil_cons] at h
    rw [hl, h]
  · show Ord.compare (Utf8.encode t) (Utf8.encode _) = .lt
    rw [encode_pair, hl, compare_append_left, List.compare_cons_cons, hb']
    rfl

end Value

namespace Column

open Value

variable {c : Column} {elements : List String}

theorem decode_set (htype : c.type = .set elements) (hcount : elements.length ≤ 64) (offset : Int)
    {bytes : List UInt8} (h : c.IsElement bytes) :
    c.decode offset bytes = .str (maskText elements (bigEndian bytes)) := by
  have hknown : bigEndian bytes < 2 ^ elements.length := by
    have hknown := h.known
    rwa [elementNumbers, htype] at hknown
  have hmask : bigEndian bytes < 0x10000000000000000 :=
    Nat.lt_of_lt_of_le hknown (Nat.pow_le_pow_right (by decide) hcount)
  rw [decode, htype]
  show ofSet elements bytes = _
  rw [ofSet_of_length_le hcount, Nat.mod_eq_of_lt hmask]
  rfl

/-- **Stored elements are read as elements that the type lists**, in their order, with commas
between them. -/
theorem exists_decode_eq_intercalate (hlist : c.type.elements? = some elements)
    (hcount : ∀ l, c.type = .set l → l.length ≤ 64) (offset : Int) {bytes : List UInt8}
    (h : c.IsElement bytes) :
    ∃ l, l.Sublist elements ∧ c.decode offset bytes = .str (",".intercalate l) := by
  cases htype : c.type with
  | enum l =>
    rw [htype] at hlist
    cases hlist
    rw [decode_enum htype offset h]
    cases bigEndian bytes with
    | zero => exact ⟨[], List.nil_sublist _, rfl⟩
    | succ n =>
      cases hn : elements[n]? with
      | none => exact ⟨[], List.nil_sublist _, by simp [hn]⟩
      | some e =>
        exact ⟨[e], List.singleton_sublist.mpr (List.mem_of_getElem? hn), by simp [hn]⟩
  | set l =>
    rw [htype] at hlist
    cases hlist
    refine ⟨chosen elements (bigEndian bytes), ?_, decode_set htype (hcount _ htype) offset h⟩
    have hsublist := (List.filter_sublist (l := elements.zipIdx)
      (p := fun e => (bigEndian bytes).testBit e.2)).map Prod.fst
    rwa [List.zipIdx_map_fst] at hsublist
  | _ => simp [htype, ColumnType.elements?] at hlist

/-- The bytes of a set hold all of its masks. -/
theorem pow_elements_le {n : Nat} (h : n ≤ 64) :
    2 ^ n ≤ Nat.pow 256 (if ceilDiv n 8 ≤ 4 then ceilDiv n 8 else 8) := by
  have hbytes : n ≤ 8 * (if ceilDiv n 8 ≤ 4 then ceilDiv n 8 else 8) := by
    unfold ceilDiv
    split <;> omega
  calc 2 ^ n ≤ 2 ^ (8 * (if ceilDiv n 8 ≤ 4 then ceilDiv n 8 else 8)) :=
        Nat.pow_le_pow_right (by decide) hbytes
    _ = _ := Nat.pow_mul 2 8 _

theorem sortsAsStored_set_iff_precedes (htype : c.type = .set elements)
    (hcount : elements.length ≤ 64) :
    c.SortsAsStored ↔ ∀ m n, m < n → n < 2 ^ elements.length →
      Precedes (maskText elements m) (maskText elements n) := by
  have hwidth : c.fixedLength =
      some (if ceilDiv elements.length 8 ≤ 4 then ceilDiv elements.length 8 else 8) := by
    rw [fixedLength, htype]
    rfl
  rw [sortsAsStored_iff_precedes _ hwidth fun offset _ => decode_set htype hcount offset,
    show c.elementNumbers = 2 ^ elements.length by rw [elementNumbers, htype]]
  exact forall_congr' fun m => forall_congr' fun n => forall_congr' fun _ =>
    ⟨fun h hn => h hn (Nat.lt_of_lt_of_le hn (pow_elements_le hcount)), fun h hn _ => h hn⟩

/-- Of three elements the third is both below the first two, or else not below it and the first. -/
theorem not_sorted_of_three {s t u : String} {rest : List String}
    (hcomma : ∀ e ∈ s :: t :: u :: rest, ',' ∉ e.toList)
    (h : ∀ m n, m < n → n < 2 ^ (s :: t :: u :: rest).length →
      Precedes (maskText (s :: t :: u :: rest) m) (maskText (s :: t :: u :: rest) n)) : False := by
  have hpow : 8 ≤ 2 ^ (s :: t :: u :: rest).length :=
    Nat.pow_le_pow_right (n := 2) (i := 3) (by decide) (by simp)
  have h14 : Precedes s u := by
    simpa [maskText, chosen_cons, chosen_zero] using h 1 4 (by decide) (by omega)
  have h34 : Precedes (",".intercalate [s, t]) u := by
    simpa [maskText, chosen_cons, chosen_zero] using h 3 4 (by decide) (by omega)
  have h45 : Precedes u (",".intercalate [s, u]) := by
    simpa [maskText, chosen_cons, chosen_zero] using h 4 5 (by decide) (by omega)
  have hsu : GoesOnBelowComma s u := goesOnBelowComma_of (hcomma u (by simp)) h14 h45
  exact h34.asymm (hsu.between t).2

/-- **A set sorts as stored** if it has one element at most, or two of which the second goes on from
the first below the comma. -/
theorem sortsAsStored_set_iff (htype : c.type = .set elements) (hcount : elements.length ≤ 64)
    (hne : ∀ e ∈ elements, e ≠ "") (hcomma : ∀ e ∈ elements, ',' ∉ e.toList) :
    c.SortsAsStored ↔
      elements.length ≤ 1 ∨ ∃ s t, elements = [s, t] ∧ GoesOnBelowComma s t := by
  rw [sortsAsStored_set_iff_precedes htype hcount]
  constructor
  · intro h
    match elements with
    | [] | [_] => exact Or.inl (by simp)
    | [s, t] =>
      have h12 : Precedes s t := by
        simpa [maskText, chosen_cons, chosen_zero] using h 1 2 (by decide) (by simp)
      have h23 : Precedes t (",".intercalate [s, t]) := by
        simpa [maskText, chosen_cons, chosen_zero] using h 2 3 (by decide) (by simp)
      exact Or.inr ⟨s, t, rfl, goesOnBelowComma_of (hcomma t (by simp)) h12 h23⟩
    | s :: t :: u :: rest => exact (not_sorted_of_three hcomma h).elim
  · intro h m n hmn hn
    refine precedes_of_steps (fun k hk => ?_) hmn hn
    rcases h with h | ⟨s, t, rfl, hst⟩
    · match elements with
      | [] => simp at hk
      | [s] =>
        have hk' : k + 1 < 2 := by simpa using hk
        obtain rfl : k = 0 := by omega
        simpa [maskText, chosen_cons, chosen_zero] using precedes_empty (hne s (by simp))
    · have hs : Precedes "" s := precedes_empty (hne s (by simp))
      obtain ⟨hst, hboth⟩ := hst.between t
      have hk' : k + 1 < 4 := by simpa using hk
      obtain rfl | rfl | rfl : k = 0 ∨ k = 1 ∨ k = 2 := by omega
      · simpa [maskText, chosen_cons, chosen_zero]
      · simpa [maskText, chosen_cons, chosen_zero]
      · simpa [maskText, chosen_cons, chosen_zero]

/-! ### Which declarations sort as stored -/

/-- **The declarations whose elements are in the order of their numbers**: enumerations in the order
of the bytes of their elements, and sets of up to one element, or of two of which the second goes on
from the first below the comma. -/
theorem sortsAsStored_iff (c : Column) (elements : List String) :
    (c.type = .enum elements →
      (c.SortsAsStored ↔ ("" :: numbered elements).Pairwise Precedes)) ∧
    (c.type = .set elements → elements.length ≤ 64 →
      (∀ e ∈ elements, e ≠ "" ∧ ',' ∉ e.toList) →
        (c.SortsAsStored ↔
          elements.length ≤ 1 ∨ ∃ s t, elements = [s, t] ∧ GoesOnBelowComma s t)) :=
  ⟨sortsAsStored_enum_iff, fun htype hcount h =>
    sortsAsStored_set_iff htype hcount (fun e he => (h e he).1) fun e he => (h e he).2⟩

/-- **Not every declaration does**: of two elements that are declared the other way round the first
is stored below the second and compares above it. -/
theorem not_sortsAsStored :
    let c := ofType "size" (.enum ["b", "a"])
    c.IsElement [1] ∧ c.IsElement [2] ∧
      (c.decode 0 [1]).compare (c.decode 0 [2]) = .gt ∧ compareOctets [1] [2] = .lt ∧
      ¬ c.SortsAsStored := by
  have h1 : (ofType "size" (.enum ["b", "a"])).IsElement [1] := ⟨rfl, by decide⟩
  have h2 : (ofType "size" (.enum ["b", "a"])).IsElement [2] := ⟨rfl, by decide⟩
  have hgt : ((ofType "size" (.enum ["b", "a"])).decode 0 [1]).compare
      ((ofType "size" (.enum ["b", "a"])).decode 0 [2]) = .gt := by decide +kernel
  have hlt : compareOctets [1] [2] = .lt := by decide +kernel
  refine ⟨h1, h2, hgt, hlt, fun h => ?_⟩
  exact absurd ((hgt.symm.trans (h 0 _ _ h1 h2)).trans hlt) (by decide)

end Column
end Tablespace
