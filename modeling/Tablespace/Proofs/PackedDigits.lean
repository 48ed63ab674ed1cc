import Tablespace.Proofs.Packed
import Tablespace.Value.Decode

/-! # The digits of packed decimals

The digits before the point of a decimal are packed from the point to the left in groups of nine,
those after it from the point to the right. A full group takes four bytes, and the one that is left
over at either end half as many as it has digits. Whatever the numbers of digits, a packed decimal
is shown as its digits, without the zeros that lead them.

* `Packed.stored`: the packed form of a sign and digits, group by group.
* `Packed.stored_eq_pack`: it is the one that sorts as decimals do.
* `Column.decode_stored`: a packed decimal is shown as its digits. -/

namespace Tablespace

open Numeral (Digits value)

namespace Packed

/-- The bytes of a group that is not full. -/
def leftover (ds : List Char) : List UInt8 := bytesOf ((ds.length + 1) / 2) (value ds)

/-- The bytes of full groups. -/
def fullGroups : (n : Nat) → List Char → List UInt8
  | 0, _ => []
  | n + 1, ds => bytesOf 4 (value (ds.take 9)) ++ fullGroups n (ds.drop 9)

/-- The bytes of the digits before the point: what is left over comes first. -/
def bytesBefore (ds : List Char) : List UInt8 :=
  leftover (ds.take (ds.length % 9)) ++ fullGroups (ds.length / 9) (ds.drop (ds.length % 9))

/-- The bytes of the digits after the point: what is left over comes last. -/
def bytesAfter (ds : List Char) : List UInt8 :=
  fullGroups (ds.length / 9) ds ++ leftover (ds.drop (9 * (ds.length / 9)))

/-- Bytes with the highest bit of the first one set. -/
def setHighest : List UInt8 → List UInt8
  | [] => []
  | b :: bs => (b ||| 0x80) :: bs

/-- **The stored form** of a sign and of digits before and after a point: the highest bit set, and
all bits of a negative decimal the other way round. -/
def stored (negative : Bool) (whole fraction : List Char) : List UInt8 :=
  let bytes := setHighest (bytesBefore whole ++ bytesAfter fraction)
  if negative then bytes.map (~~~ ·) else bytes

/-! ### Groups -/

theorem packGroups_append (gs hs : List Nat) (ds : List Char) :
    packGroups (gs ++ hs) ds = packGroups gs ds ++ packGroups hs (ds.drop gs.sum) := by
  induction gs generalizing ds with
  | nil => rfl
  | cons g gs ih =>
    rw [List.cons_append, packGroups, packGroups, ih, List.append_assoc, List.drop_drop,
      List.sum_cons]

theorem packGroups_replicate (n : Nat) (ds : List Char) :
    packGroups (List.replicate n 9) ds = fullGroups n ds := by
  induction n generalizing ds with
  | zero => rfl
  | succ n ih =>
    have hnine : groupBytes 9 = 4 := rfl
    rw [List.replicate_succ, packGroups, fullGroups, ih, hnine]

theorem packGroups_leftover {r : Nat} (hr : r < 9) {ds : List Char} (h : r ≤ ds.length) :
    packGroups (if r = 0 then [] else [r]) ds = leftover (ds.take r) := by
  have hlength : (ds.take r).length = r := by
    rw [List.length_take]
    omega
  have hbytes : ∀ k : Fin 9, groupBytes k = (k.val + 1) / 2 := by decide
  have hsize : groupBytes r = (r + 1) / 2 := hbytes ⟨r, hr⟩
  unfold leftover
  rw [hlength]
  by_cases h0 : r = 0
  · subst h0
    rfl
  · rw [if_neg h0, packGroups, packGroups, List.append_nil, hsize]

theorem sum_leftover (r : Nat) : (if r = 0 then [] else [r]).sum = r := by
  by_cases h : r = 0
  · rw [if_pos h, h]
    rfl
  · rw [if_neg h, List.sum_singleton]

theorem bytesBefore_eq (ds : List Char) :
    bytesBefore ds = packGroups (wholeGroups ds.length) ds := by
  have hr : ds.length % 9 < 9 := Nat.mod_lt _ (by omega)
  rw [wholeGroups, packGroups_append, packGroups_leftover hr (Nat.mod_le _ _), sum_leftover,
    packGroups_replicate]
  rfl

theorem bytesAfter_eq (ds : List Char) :
    bytesAfter ds = packGroups (fractionGroups ds.length) ds := by
  have hr : ds.length % 9 < 9 := Nat.mod_lt _ (by omega)
  have hdrop : (ds.drop (9 * (ds.length / 9))).length = ds.length % 9 := by
    rw [List.length_drop]
    omega
  have hsum : (List.replicate (ds.length / 9) 9).sum = 9 * (ds.length / 9) := by
    rw [List.sum_replicate_nat]
    omega
  have hrest := packGroups_leftover hr (Nat.le_of_eq hdrop.symm)
  rw [← hdrop, List.take_length, hdrop] at hrest
  rw [fractionGroups, packGroups_append, packGroups_replicate, hsum, hrest]
  rfl

/-- **The stored form is the packed form**, which sorts as decimals do. -/
theorem stored_eq_pack {whole fraction : List Char} (hd : Digits (whole ++ fraction))
    (hne : whole ++ fraction ≠ []) (negative : Bool) :
    stored negative whole fraction = pack negative whole fraction := by
  obtain ⟨b, bs, hbytes, hb⟩ := exists_magnitude hd hne
  -- the first byte is below 0x80, so that setting its highest bit is flipping it
  have hor : ∀ c : UInt8, c < 0x80 → c ||| 0x80 = c ^^^ 0x80 := fun c =>
    (by decide +kernel : ∀ n : Fin 256, UInt8.ofFin n < 0x80 →
      UInt8.ofFin n ||| 0x80 = UInt8.ofFin n ^^^ 0x80) c.toFin
  have hnot : ∀ c : UInt8, ~~~ c = c ^^^ 0xFF := fun c =>
    (by decide +kernel : ∀ n : Fin 256, ~~~ UInt8.ofFin n = UInt8.ofFin n ^^^ 0xFF) c.toFin
  have hmagnitude : bytesBefore whole ++ bytesAfter fraction = b :: bs := by
    rw [bytesBefore_eq, bytesAfter_eq, ← hbytes]
    rfl
  unfold stored pack
  rw [hmagnitude, hbytes, setHighest, flipHighest, hor b hb]
  simp only [hnot]

theorem length_pack (negative : Bool) (whole fraction : List Char) :
    (pack negative whole fraction).length =
      decimalBytes (whole.length + fraction.length) fraction.length := by
  have hflip : ∀ l : List UInt8, (flipHighest l).length = l.length := by
    intro l
    rcases l with _ | ⟨b, bs⟩
    · rfl
    · rfl
  have hmagnitude : (magnitude whole fraction).length =
      decimalBytes (whole.length + fraction.length) fraction.length := by
    rw [magnitude, List.length_append, length_packGroups, length_packGroups, decimalBytes,
      Nat.add_sub_cancel]
  unfold pack
  rcases negative with _ | _
  · rw [← hmagnitude]
    exact hflip _
  · rw [← hmagnitude, ← hflip (magnitude whole fraction)]
    exact List.length_map _

/-! ### The text -/

/-- Digits are zeros and then digits that no zero leads. -/
theorem exists_zeros (ds : List Char) : ∃ zeros rest, ds = List.replicate zeros '0' ++ rest ∧
    rest.head? ≠ some '0' ∧ stripLeading ds = if rest = [] then ['0'] else rest := by
  obtain ⟨zeros, hzeros⟩ := Exact.append_dropZeros ds
  exact ⟨zeros, Exact.dropZeros ds, hzeros, Exact.head?_dropZeros ds, stripLeading_eq ds⟩

end Packed

namespace Column

open Packed (stored)

/-- **A stored decimal is shown as its digits.** The stored form of a sign and as many digits before
and after the point as the type has takes as many bytes as the type does. It is shown with its sign,
without the zeros that lead the digits before the point unless there are no other digits, and with
all digits after the point. -/
theorem decode_stored (c : Column) (offset : Int) {precision scale : Nat}
    (hc : c.type = .decimal precision scale) (hp : 0 < precision) (negative : Bool)
    {whole fraction : List Char} (hd : Digits (whole ++ fraction))
    (hprecision : whole.length + fraction.length = precision) (hscale : fraction.length = scale) :
    (stored negative whole fraction).length = decimalBytes precision scale ∧
      ∃ zeros rest, whole = List.replicate zeros '0' ++ rest ∧ rest.head? ≠ some '0' ∧
        c.decode offset (stored negative whole fraction) =
          .decimal (String.ofList ((if negative then ['-'] else []) ++
            (if rest = [] then ['0'] else rest) ++
            if scale = 0 then [] else '.' :: fraction)) := by
  subst hprecision hscale
  have hne : whole ++ fraction ≠ [] := by
    rw [← List.length_pos_iff, List.length_append]
    exact hp
  have hread := Packed.decode?_pack hd hne negative
  obtain ⟨zeros, rest, hwhole, hhead, hstrip⟩ := Packed.exists_zeros whole
  rw [Packed.stored_eq_pack hd hne]
  refine ⟨Packed.length_pack .., zeros, rest, hwhole, hhead, ?_⟩
  unfold decode
  rw [hc]
  rw [List.length_append] at hread
  simp only [hread, Value.ofText, Packed.render, hstrip, List.length_eq_zero_iff]

/-- One zero before the point, and a full group and two digits after it. -/
theorem decode_stored_share :
    (ofType "share" (.decimal 12 11)).type = .decimal 12 11 ∧ 0 < 12 ∧
      Digits (['0'] ++ (List.replicate 8 '0' ++ ['1', '2', '0'])) ∧
      (stored true ['0'] (List.replicate 8 '0' ++ ['1', '2', '0'])).length = 6 ∧
      (ofType "share" (.decimal 12 11)).decode 0
          (stored true ['0'] (List.replicate 8 '0' ++ ['1', '2', '0'])) =
        .decimal (String.ofList
          (['-'] ++ ['0'] ++ '.' :: (List.replicate 8 '0' ++ ['1', '2', '0']))) := by
  have hd : Digits (['0'] ++ (List.replicate 8 '0' ++ ['1', '2', '0'])) := by
    unfold Numeral.Digits
    rw [← List.all_eq_true]
    decide
  obtain ⟨hlength, zeros, rest, hwhole, hhead, htext⟩ := decode_stored
    (ofType "share" (.decimal 12 11)) 0 rfl (by decide) true hd (by decide) (by decide)
  have hbytes : decimalBytes 12 11 = 6 := by decide
  have hrest : rest = [] := by
    rcases zeros with _ | zeros
    · rw [List.replicate_zero, List.nil_append] at hwhole
      exact absurd (congrArg List.head? hwhole).symm hhead
    · exact (List.append_eq_nil_iff.mp (List.cons.inj hwhole).2.symm).2
  rw [if_pos rfl, if_pos hrest, if_neg (by decide)] at htext
  exact ⟨rfl, by decide, hd, hlength.trans hbytes, htext⟩

example : stored true ['0'] (List.replicate 8 '0' ++ ['1', '2', '0']) =
      [0x7F, 0xFF, 0xFF, 0xFF, 0xFE, 0xEB] ∧
    (ofType "share" (.decimal 12 11)).decode 0 [0x7F, 0xFF, 0xFF, 0xFF, 0xFE, 0xEB] =
      .decimal "-0.00000000120" := by
  decide +kernel

end Column
end Tablespace
