import Tablespace.Proofs.ByteOrder
import Tablespace.Proofs.GuardedValue
import Tablespace.Proofs.Meaning

/-! # Packed decimals in order

Digits are packed by cutting them into groups, which are as many bytes as hold any digits. The
highest bit of the first byte is left free by every group, so that it can tell the sign. Packed
decimals are in the order of the numbers that their digits write.

* `Packed.pack`: the packed form of digits and a sign.
* `Packed.decode?_pack`: it is read as these digits.
* `Packed.IsPacked`: packed decimals of a precision and a scale. `Packed.IsPacked.compare_decode`:
  they are in the order of the decimals that they are read as. -/

namespace Tablespace.Packed

open Exact (dropZeros)
open Numeral (Digits value value_append value_cons value_lt)

/-! ### Packing -/

/-- The bytes of digits that are cut into groups. -/
def packGroups : (groups : List Nat) → List Char → List UInt8
  | [], _ => []
  | g :: gs, ds => bytesOf (groupBytes g) (value (ds.take g)) ++ packGroups gs (ds.drop g)

/-- Bytes with their highest bit flipped. -/
def flipHighest : List UInt8 → List UInt8
  | [] => []
  | b :: bs => (b ^^^ 0x80) :: bs

/-- The bytes of digits before and after a point. -/
def magnitude (whole fraction : List Char) : List UInt8 :=
  packGroups (wholeGroups whole.length) whole ++
    packGroups (fractionGroups fraction.length) fraction

/-- **The packed form** of a sign and of digits before and after a point. -/
def pack (negative : Bool) (whole fraction : List Char) : List UInt8 :=
  let bytes := flipHighest (magnitude whole fraction)
  if negative then bytes.map (· ^^^ 0xFF) else bytes

/-- **Packed decimals.** There is no negative zero among them. -/
inductive IsPacked (precision scale : Nat) : List UInt8 → Prop
  | mk {negative : Bool} {whole fraction : List Char} (digits : Digits (whole ++ fraction))
      (some : whole ++ fraction ≠ []) (precise : (whole ++ fraction).length = precision)
      (scaled : fraction.length = scale) (sign : negative → 0 < value (whole ++ fraction)) :
      IsPacked precision scale (pack negative whole fraction)

/-! ### Groups -/

/-- Groups are of one to nine digits. -/
def Grouped (gs : List Nat) : Prop := ∀ g ∈ gs, 0 < g ∧ g ≤ 9

theorem grouped_wholeGroups (d : Nat) : Grouped (wholeGroups d) := by
  intro g hg
  refine ⟨Guarded.pos_of_mem_groups (Or.inl hg), ?_⟩
  unfold wholeGroups at hg
  rcases List.mem_append.mp hg with hg | hg
  · split at hg
    · cases hg
    · have hmod := List.mem_singleton.mp hg
      omega
  · have hnine := List.eq_of_mem_replicate hg
    omega

theorem grouped_fractionGroups (d : Nat) : Grouped (fractionGroups d) := by
  intro g hg
  refine ⟨Guarded.pos_of_mem_groups (Or.inr hg), ?_⟩
  unfold fractionGroups at hg
  rcases List.mem_append.mp hg with hg | hg
  · have hnine := List.eq_of_mem_replicate hg
    omega
  · split at hg
    · cases hg
    · have hmod := List.mem_singleton.mp hg
      omega

theorem sum_wholeGroups (d : Nat) : (wholeGroups d).sum = d := by
  unfold wholeGroups
  rw [List.sum_append, List.sum_replicate_nat]
  split
  · rw [List.sum_nil]
    omega
  · rw [List.sum_singleton]
    omega

theorem sum_fractionGroups (d : Nat) : (fractionGroups d).sum = d := by
  unfold fractionGroups
  rw [List.sum_append, List.sum_replicate_nat]
  split
  · rw [List.sum_nil]
    omega
  · rw [List.sum_singleton]
    omega

/-- The digits of a group leave the highest bit of its bytes free. -/
theorem value_lt_half {g : Nat} (hg : 0 < g ∧ g ≤ 9) {ds : List Char} (hd : Digits ds)
    (hl : ds.length = g) : value ds < 128 * Nat.pow 256 (groupBytes g - 1) := by
  have hgroup : ∀ g : Fin 10, 0 < g.val → 10 ^ g.val ≤ 128 * Nat.pow 256 (groupBytes g - 1) := by
    decide
  exact Nat.lt_of_lt_of_le (value_lt_of_length hd hl) (hgroup ⟨g, by omega⟩ hg.1)

theorem value_lt_group {g : Nat} (hg : 0 < g ∧ g ≤ 9) {ds : List Char} (hd : Digits ds)
    (hl : ds.length = g) : value ds < Nat.pow 256 (groupBytes g) := by
  have hlt := value_lt_half hg hd hl
  have hpos := Guarded.groupBytes_pos hg.1
  obtain ⟨n, hn⟩ : ∃ n, groupBytes g = n + 1 := ⟨groupBytes g - 1, by omega⟩
  rw [hn, Nat.add_sub_cancel] at hlt
  rw [hn, pow_length_succ]
  omega

theorem length_packGroups (gs : List Nat) (ds : List Char) :
    (packGroups gs ds).length = groupsBytes gs := by
  induction gs generalizing ds with
  | nil => rfl
  | cons g gs ih => rw [packGroups, List.length_append, length_bytesOf, ih, groupsBytes]

/-- **Packed groups** are in the order of the numbers that their digits write. -/
theorem compare_packGroups {gs : List Nat} (hgs : Grouped gs) {ds es : List Char} (hd : Digits ds)
    (he : Digits es) (hdl : ds.length = gs.sum) (hel : es.length = gs.sum) :
    compare (packGroups gs ds) (packGroups gs es) = compare (value ds) (value es) := by
  induction gs generalizing ds es with
  | nil =>
    rw [List.eq_nil_of_length_eq_zero hdl, List.eq_nil_of_length_eq_zero hel]
    exact (compare_eq_iff_eq.mpr rfl).symm
  | cons g gs ih =>
    have hg := hgs g List.mem_cons_self
    have hrest : Grouped gs := fun x hx => hgs x (List.mem_cons_of_mem _ hx)
    rw [List.sum_cons] at hdl hel
    have hdt : (ds.take g).length = g := by rw [List.length_take]; omega
    have het : (es.take g).length = g := by rw [List.length_take]; omega
    have hdd : (ds.drop g).length = gs.sum := by rw [List.length_drop]; omega
    have hed : (es.drop g).length = gs.sum := by rw [List.length_drop]; omega
    have hfirst : compare (bytesOf (groupBytes g) (value (ds.take g)))
        (bytesOf (groupBytes g) (value (es.take g))) =
          compare (value (ds.take g)) (value (es.take g)) := by
      rw [compare_bigEndian (by rw [length_bytesOf, length_bytesOf]),
        bigEndian_bytesOf (value_lt_group hg (digits_take hd g) hdt),
        bigEndian_bytesOf (value_lt_group hg (digits_take he g) het)]
    have hsplit : ∀ cs : List Char, (cs.drop g).length = gs.sum →
        value cs = value (cs.take g) * 10 ^ gs.sum + value (cs.drop g) := by
      intro cs hcs
      rw [← hcs, ← value_append, List.take_append_drop]
    have hdlt := value_lt_of_length (digits_drop hd g) hdd
    have helt := value_lt_of_length (digits_drop he g) hed
    rw [packGroups, packGroups, compare_append _ _ (by rw [length_bytesOf, length_bytesOf]), hfirst,
      ih hrest (digits_drop hd g) (digits_drop he g) hdd hed, hsplit ds hdd, hsplit es hed,
      compare_mul_add hdlt helt]

/-! ### Reading -/

/-- Digits are those of the number that they write, in as many places. -/
theorem padded_value {ds : List Char} (hd : Digits ds) (hne : ds ≠ []) :
    Numeral.padded ds.length (value ds) = ds := by
  have hpos : 0 < ds.length := List.length_pos_iff.mpr hne
  have hl : (Numeral.padded ds.length (value ds)).length = ds.length :=
    length_padded hpos (value_lt hd)
  have hv : value (Numeral.padded ds.length (value ds)) = value ds := value_padded ..
  have hp := digits_padded ds.length (value ds)
  generalize Numeral.padded ds.length (value ds) = es at hl hv hp
  clear hne hpos
  induction ds generalizing es with
  | nil => exact List.eq_nil_of_length_eq_zero hl
  | cons c ds ih =>
    cases es with
    | nil => cases hl
    | cons e es =>
      have hl' : es.length = ds.length := by simpa using hl
      have hcmp := compare_mul_add (x := e.toNat - '0'.toNat) (y := c.toNat - '0'.toNat)
        (value_lt_of_length hp.tail hl') (value_lt hd.tail)
      rw [value_cons, value_cons, hl'] at hv
      rw [compare_eq_iff_eq.mpr hv, eq_comm, Ordering.then_eq_eq, compare_eq_iff_eq,
        compare_eq_iff_eq] at hcmp
      have hzero : '0'.toNat = 48 := rfl
      obtain ⟨-, hc, -⟩ := encode_digit (hd c List.mem_cons_self)
      obtain ⟨-, he, -⟩ := encode_digit (hp e List.mem_cons_self)
      have hce : e.toNat = c.toNat := by omega
      rw [Char.toNat_inj.mp hce, ih hd.tail es hl' hcmp.2 hp.tail]

/-- **Packed groups are read as their digits**, whatever groups follow. -/
theorem readGroups?_packGroups {gs : List Nat} (hgs : Grouped gs) {ds : List Char} (hd : Digits ds)
    (hl : ds.length = gs.sum) :
    ∃ values, values.length = gs.length ∧ groupDigits gs values = ds ∧ ∀ hs bytes,
      readGroups? (gs ++ hs) (packGroups gs ds ++ bytes) =
        (readGroups? hs bytes).map (values ++ ·) := by
  induction gs generalizing ds with
  | nil =>
    refine ⟨[], rfl, (List.eq_nil_of_length_eq_zero hl).symm, fun hs bytes => ?_⟩
    show readGroups? hs bytes = _
    simp
  | cons g gs ih =>
    have hg := hgs g List.mem_cons_self
    rw [List.sum_cons] at hl
    have hdt : (ds.take g).length = g := by rw [List.length_take]; omega
    have hdd : (ds.drop g).length = gs.sum := by rw [List.length_drop]; omega
    obtain ⟨values, hvl, hvd, hread⟩ :=
      ih (fun x hx => hgs x (List.mem_cons_of_mem _ hx)) (digits_drop hd g) hdd
    have hpad : Numeral.padded g (value (ds.take g)) = ds.take g := by
      have hne : ds.take g ≠ [] := List.ne_nil_of_length_pos (by omega)
      have h := padded_value (digits_take hd g) hne
      rwa [hdt] at h
    refine ⟨value (ds.take g) :: values, by rw [List.length_cons, List.length_cons, hvl], ?_,
      fun hs bytes => ?_⟩
    · show Numeral.padded g (value (ds.take g)) ++ groupDigits gs values = ds
      rw [hpad, hvd, List.take_append_drop]
    · have hlen := length_bytesOf (groupBytes g) (value (ds.take g))
      rw [packGroups, List.cons_append, readGroups?, List.append_assoc,
        if_pos (by rw [List.length_append]; omega), List.take_left' hlen, List.drop_left' hlen,
        hread, bigEndian_bytesOf (value_lt_group hg (digits_take hd g) hdt), Option.map_map]
      rfl

/-! ### Signs -/

/-- What flipping and complementing does to a byte whose highest bit is free. -/
theorem flip_byte (b : UInt8) : b < 0x80 → ¬ b ^^^ 0x80 < 0x80 ∧ b ^^^ 0x80 ^^^ 0x80 = b ∧
    (b ^^^ 0x80) ^^^ 0xFF < 0x80 ∧ (b ^^^ 0x80) ^^^ 0xFF ^^^ 0x7F = b ∧
    (b ^^^ 0x80).toNat = b.toNat + 128 :=
  (by decide +kernel : ∀ n : Fin 256, UInt8.ofFin n < 0x80 → ¬ UInt8.ofFin n ^^^ 0x80 < 0x80 ∧
    UInt8.ofFin n ^^^ 0x80 ^^^ 0x80 = UInt8.ofFin n ∧
    (UInt8.ofFin n ^^^ 0x80) ^^^ 0xFF < 0x80 ∧
    (UInt8.ofFin n ^^^ 0x80) ^^^ 0xFF ^^^ 0x7F = UInt8.ofFin n ∧
    (UInt8.ofFin n ^^^ 0x80).toNat = (UInt8.ofFin n).toNat + 128) b.toFin

theorem complement_complement (bs : List UInt8) :
    (bs.map (· ^^^ 0xFF)).map (· ^^^ 0xFF) = bs := by
  have hbyte : ∀ b : UInt8, b ^^^ 0xFF ^^^ 0xFF = b := fun b => by
    rw [UInt8.xor_assoc, UInt8.xor_self, UInt8.xor_zero]
  rw [List.map_map]
  exact List.map_id'' hbyte bs

variable {b c : UInt8} {bs cs : List UInt8}

/-- Reading takes off the sign that packing puts on. -/
theorem unsign_flipHighest (hb : b < 0x80) (negative : Bool) :
    unsign (if negative then (flipHighest (b :: bs)).map (· ^^^ 0xFF) else flipHighest (b :: bs)) =
      (negative, b :: bs) := by
  obtain ⟨hpos, hpos', hneg, hneg', -⟩ := flip_byte b hb
  cases negative with
  | false =>
    simp only [Bool.false_eq_true, if_false, flipHighest, unsign]
    rw [if_neg hpos, hpos']
  | true =>
    simp only [if_true, flipHighest, List.map_cons, unsign]
    rw [if_pos hneg, hneg', complement_complement]

theorem compare_flipHighest (hb : b < 0x80) (hc : c < 0x80) :
    compare (flipHighest (b :: bs)) (flipHighest (c :: cs)) = compare (b :: bs) (c :: cs) := by
  obtain ⟨-, -, -, -, hb'⟩ := flip_byte b hb
  obtain ⟨-, -, -, -, hc'⟩ := flip_byte c hc
  have hbyte : compare (b ^^^ 0x80) (c ^^^ 0x80) = compare b c := by
    rw [UInt8.compare_eq_toNat_compare_toNat, UInt8.compare_eq_toNat_compare_toNat, hb', hc']
    exact compare_congr (by omega) (by omega) (by omega)
  rw [flipHighest, flipHighest, List.compare_cons_cons, List.compare_cons_cons, hbyte]

/-- Negative packed decimals come before those without a sign. -/
theorem compare_signs (hb : b < 0x80) (hc : c < 0x80) :
    compare ((flipHighest (b :: bs)).map (· ^^^ 0xFF)) (flipHighest (c :: cs)) = .lt := by
  obtain ⟨-, -, hneg, -, -⟩ := flip_byte b hb
  obtain ⟨hpos, -, -, -, -⟩ := flip_byte c hc
  have hlt : compare ((b ^^^ 0x80) ^^^ 0xFF) (c ^^^ 0x80) = .lt := by
    rw [UInt8.lt_iff_toNat_lt] at hneg hpos
    rw [UInt8.compare_eq_toNat_compare_toNat, compare_lt_iff_lt]
    omega
  rw [flipHighest, flipHighest, List.map_cons, List.compare_cons_cons, hlt]
  rfl

/-! ### Packed decimals -/

/-- The bytes of digits leave their highest bit free. -/
theorem exists_packGroups {gs : List Nat} (hgs : Grouped gs) {ds : List Char} (hd : Digits ds)
    (hl : ds.length = gs.sum) (hne : ds ≠ []) : ∃ b bs, packGroups gs ds = b :: bs ∧ b < 0x80 := by
  cases gs with
  | nil => exact absurd (List.eq_nil_of_length_eq_zero hl) hne
  | cons g gs =>
    have hg := hgs g List.mem_cons_self
    rw [List.sum_cons] at hl
    have hdt : (ds.take g).length = g := by rw [List.length_take]; omega
    have hlen := length_bytesOf (groupBytes g) (value (ds.take g))
    have hval := bigEndian_bytesOf (value_lt_group hg (digits_take hd g) hdt)
    have hhalf := value_lt_half hg (digits_take hd g) hdt
    have hpos := Guarded.groupBytes_pos hg.1
    rw [packGroups]
    cases hbytes : bytesOf (groupBytes g) (value (ds.take g)) with
    | nil =>
      rw [hbytes, List.length_nil] at hlen
      omega
    | cons b bs =>
      refine ⟨b, bs ++ packGroups gs (ds.drop g), rfl, ?_⟩
      rw [hbytes, List.length_cons] at hlen
      rw [hbytes, bigEndian_cons, show bs.length = groupBytes g - 1 by omega] at hval
      have hlt : b.toNat * Nat.pow 256 (groupBytes g - 1) <
          128 * Nat.pow 256 (groupBytes g - 1) := by omega
      have hb : b.toNat < 128 := Nat.lt_of_mul_lt_mul_right hlt
      exact UInt8.lt_iff_toNat_lt.mpr hb

variable {w f w' f' : List Char}

theorem exists_magnitude (hd : Digits (w ++ f)) (hne : w ++ f ≠ []) :
    ∃ b bs, magnitude w f = b :: bs ∧ b < 0x80 := by
  have hwhole := (sum_wholeGroups w.length).symm
  have hfraction := (sum_fractionGroups f.length).symm
  unfold magnitude
  by_cases hw : w = []
  · subst hw
    exact exists_packGroups (grouped_fractionGroups _) hd.right hfraction hne
  · obtain ⟨b, bs, hb, hlt⟩ := exists_packGroups (grouped_wholeGroups _) hd.left hwhole hw
    exact ⟨b, _, by rw [hb, List.cons_append], hlt⟩

theorem compare_magnitude (hd : Digits (w ++ f)) (hd' : Digits (w' ++ f'))
    (hw : w.length = w'.length) (hf : f.length = f'.length) :
    compare (magnitude w f) (magnitude w' f') = compare (value (w ++ f)) (value (w' ++ f')) := by
  have hwhole := compare_packGroups (grouped_wholeGroups w.length) hd.left hd'.left
    (sum_wholeGroups _).symm (by rw [sum_wholeGroups, hw])
  have hfraction := compare_packGroups (grouped_fractionGroups f.length) hd.right hd'.right
    (sum_fractionGroups _).symm (by rw [sum_fractionGroups, hf])
  have hlt' := value_lt_of_length hd'.right hf.symm
  rw [magnitude, magnitude, ← hw, ← hf,
    compare_append _ _ (by rw [length_packGroups, length_packGroups]), hwhole, hfraction,
    value_append, value_append, ← hf, compare_mul_add (value_lt hd.right) hlt']

/-- A decimal of any digits has groups. -/
theorem groups_ne_nil {m n : Nat} (h : 0 < m + n) : wholeGroups m ++ fractionGroups n ≠ [] := by
  intro hnil
  have hsum : (wholeGroups m ++ fractionGroups n).sum = 0 := by rw [hnil]; rfl
  rw [List.sum_append, sum_wholeGroups, sum_fractionGroups] at hsum
  omega

/-- **Packed decimals are read as the digits that were packed.** -/
theorem decode?_pack (hd : Digits (w ++ f)) (hne : w ++ f ≠ []) (negative : Bool) :
    decode? (w ++ f).length f.length (pack negative w f) = some (render negative w f) := by
  obtain ⟨b, bs, hbytes, hb⟩ := exists_magnitude hd hne
  obtain ⟨ws, hwl, hwd, hwhole⟩ :=
    readGroups?_packGroups (grouped_wholeGroups _) hd.left (sum_wholeGroups _).symm
  obtain ⟨fs, -, hfd, hfraction⟩ :=
    readGroups?_packGroups (grouped_fractionGroups _) hd.right (sum_fractionGroups _).symm
  have hread : readGroups? (wholeGroups w.length ++ fractionGroups f.length) (magnitude w f) =
      some (ws ++ fs) := by
    have hlast := hfraction [] []
    rw [List.append_nil, List.append_nil] at hlast
    rw [magnitude, hwhole, hlast, readGroups?, Option.map_some, Option.map_some, List.append_nil]
  have hwhole_length : (w ++ f).length - f.length = w.length := by
    rw [List.length_append, Nat.add_sub_cancel]
  have hpos : 0 < w.length + f.length := by
    rw [← List.length_append]
    exact List.length_pos_iff.mpr hne
  have hunsign : unsign (pack negative w f) = (negative, magnitude w f) := by
    rw [pack, hbytes]
    exact unsign_flipHighest hb negative
  unfold decode?
  simp only [hwhole_length, hunsign]
  rw [if_neg (groups_ne_nil hpos), hread, Option.map_some, List.take_left' hwl,
    List.drop_left' hwl, hwd, hfd]

/-! ### The decimals that are read -/

theorem stripLeading_eq (ds : List Char) :
    stripLeading ds = if dropZeros ds = [] then ['0'] else dropZeros ds := by
  have hdrop : ds.dropWhile (· = '0') = dropZeros ds := rfl
  rw [stripLeading, hdrop]
  cases dropZeros ds <;> rfl

/-- Zeros that lead do not count. -/
theorem stripLeading_spec {ds : List Char} (hd : Digits ds) :
    Digits (stripLeading ds) ∧ stripLeading ds ≠ [] ∧ value (stripLeading ds) = value ds := by
  have hvalue := Exact.value_dropZeros ds
  rw [stripLeading_eq]
  split
  · next hnil =>
    rw [hnil] at hvalue
    refine ⟨fun c hc => ?_, List.cons_ne_nil _ _, hvalue⟩
    rw [List.mem_singleton.mp hc]
    decide
  · next hne => exact ⟨fun c hc => hd c (Exact.mem_of_mem_dropZeros hc), hne, hvalue⟩

/-- **A decimal that is shown is the number that its digits write**, over a power of ten for the
digits after the point. -/
theorem writes_render (hd : Digits (w ++ f)) (negative : Bool) :
    Exact.Writes (render negative w f) (signed negative (value (w ++ f)) / 10 ^ f.length) := by
  obtain ⟨hs, hne, hv⟩ := stripLeading_spec hd.left
  have hunsigned : Exact.Unsigned (stripLeading w ++ if f = [] then [] else '.' :: f)
      (value (w ++ f) / 10 ^ f.length) := by
    by_cases hf : f = []
    · subst hf
      have h := Exact.Unsigned.whole hs hne
      rw [hv] at h
      simpa using h
    · have h := Exact.Unsigned.point (hs.append hd.right)
        (List.append_ne_nil_of_left_ne_nil hne f)
      have hq : (value (w ++ f) : ℚ) / 10 ^ f.length =
          value (stripLeading w) + Numeral.fraction f := by
        rw [value_append, Numeral.fraction_eq, hv]
        push_cast
        field_simp
      rw [if_neg hf, hq]
      exact h
  unfold render signed
  cases negative with
  | false =>
    have h := Exact.Writes.unsigned hunsigned
    simpa using h
  | true =>
    have h := Exact.Writes.minus hunsigned
    simpa [neg_div] using h

theorem denotes_render (hd : Digits (w ++ f)) (negative : Bool) :
    Value.Denotes (.decimal (String.ofList (render negative w f)))
      (.number (signed negative (value (w ++ f)) / 10 ^ f.length)) := by
  refine Value.Denotes.decimal ?_
  rw [String.toList_ofList]
  exact writes_render hd negative

/-! ### Order -/

theorem compare_pack (hd : Digits (w ++ f)) (hd' : Digits (w' ++ f')) (hne : w ++ f ≠ [])
    (hw : w.length = w'.length) (hf : f.length = f'.length) {k l : Bool}
    (hk : k → 0 < value (w ++ f)) (hl : l → 0 < value (w' ++ f')) :
    compare (pack k w f) (pack l w' f') =
      compare (signed k (value (w ++ f))) (signed l (value (w' ++ f'))) := by
  have hne' : w' ++ f' ≠ [] := by
    rw [← List.length_pos_iff, List.length_append] at hne ⊢
    omega
  have hvalue := compare_magnitude hd hd' hw hf
  have hvalue' := compare_magnitude hd' hd hw.symm hf.symm
  obtain ⟨b, bs, hbytes, hb⟩ := exists_magnitude hd hne
  obtain ⟨c, cs, hbytes', hc⟩ := exists_magnitude hd' hne'
  have hlength : (flipHighest (b :: bs)).length = (flipHighest (c :: cs)).length := by
    have hlen : (magnitude w f).length = (magnitude w' f').length := by
      simp only [magnitude, List.length_append, length_packGroups, hw, hf]
    rw [hbytes, hbytes'] at hlen
    exact hlen
  rw [hbytes, hbytes'] at hvalue hvalue'
  unfold pack signed
  rw [hbytes, hbytes']
  cases k with
  | false =>
    cases l with
    | false =>
      simp only [Bool.false_eq_true, if_false]
      rw [compare_flipHighest hb hc, hvalue]
      exact compare_congr (by omega) (by omega) (by omega)
    | true =>
      have hpos := hl rfl
      have hgt : compare (flipHighest (b :: bs)) ((flipHighest (c :: cs)).map (· ^^^ 0xFF)) = .gt :=
        Std.OrientedCmp.gt_iff_lt.mpr (compare_signs hc hb)
      simp only [Bool.false_eq_true, if_false, if_true]
      rw [hgt, eq_comm, compare_gt_iff_gt]
      omega
  | true =>
    have hpos := hk rfl
    cases l with
    | false =>
      simp only [Bool.false_eq_true, if_false, if_true]
      rw [compare_signs hb hc, eq_comm, compare_lt_iff_lt]
      omega
    | true =>
      simp only [if_true]
      rw [compare_complement hlength, compare_flipHighest hc hb, hvalue']
      exact compare_congr (by omega) (by omega) (by omega)

/-- **Packed decimals are in the order of the decimals that they are read as.** -/
theorem IsPacked.compare_decode {precision scale : Nat} {a b : List UInt8}
    (ha : IsPacked precision scale a) (hb : IsPacked precision scale b) :
    (Value.ofText .decimal a (decode? precision scale a)).compare
      (Value.ofText .decimal b (decode? precision scale b)) = compare a b := by
  cases ha with
  | @mk k w f hd hne hp hs hk =>
    cases hb with
    | @mk l w' f' hd' hne' hp' hs' hl =>
      have hlength : w.length = w'.length := by
        rw [List.length_append] at hp hp'
        omega
      have hread := decode?_pack hd hne k
      have hread' := decode?_pack hd' hne' l
      rw [hp, hs] at hread
      rw [hp', hs'] at hread'
      have hpow : (0 : ℚ) < 10 ^ scale := by positivity
      rw [hread, hread', Value.ofText, Value.ofText,
        Value.compare_numbers (denotes_render hd k) (denotes_render hd' l),
        compare_pack hd hd' hne hlength (hs.trans hs'.symm) hk hl, hs, hs']
      refine (compare_congr (fun h => ?_) (fun h => by rw [h]) (fun h => ?_)).symm
      · exact div_lt_div_of_pos_right (by exact_mod_cast h) hpow
      · exact div_lt_div_of_pos_right (by exact_mod_cast h) hpow

end Tablespace.Packed
