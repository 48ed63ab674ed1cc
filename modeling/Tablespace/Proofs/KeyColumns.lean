import Mathlib.Data.List.Forall2
import Tablespace.Proofs.Encoding

/-! # The columns of a key

A row has the values of its key twice: in the order of the key, and among the values of its columns.
The two agree, since the columns of a key differ from each other and from those of all other fields.

* `Table.nodup_primaryKey`, `Table.exists_column_of_mem_primaryKey`: the key of a checked table
  names columns, none of them twice.
* `Layout.forall₂_isKeyField`: the fields of a key, by the names of its columns.
* `Table.HasValue`: the value of a column among those of a row. `Codec.forall₂_arrange`: the columns
  of a key have its values.
* `Codec.values_of_read`: the values of a decoded row are those of its key and its other fields. -/

namespace Tablespace

/-! ### The key of a table -/

namespace Table
variable {t : Table} {n m : String} {i : Nat}

/-- **A checked table names no column twice in its key.** -/
theorem nodup_primaryKey (h : t.validate = .ok ()) : t.primaryKey.Nodup :=
  (validate_eq_ok_iff.mp h).2.2.1

/-- **A checked table has the columns that its key names.** -/
theorem exists_column_of_mem_primaryKey (h : t.validate = .ok ()) (hn : n ∈ t.primaryKey) :
    ∃ i c, t.columnIndex? n = some i ∧ t.columns[i]? = some c ∧ t.column? n = some c := by
  obtain ⟨c, hc, -⟩ := (validate_eq_ok_iff.mp h).2.2.2 n hn
  obtain ⟨hname, i, hi, rfl, hbefore⟩ := List.find?_eq_some_iff_getElem.mp hc
  have hindex : t.columnIndex? n = some i :=
    List.findIdx?_eq_some_iff_getElem.mpr ⟨hi, hname, fun j hj => by simpa using hbefore j hj⟩
  exact ⟨i, _, hindex, by rw [getElem?_of_columnIndex? hindex, hc], hc⟩

theorem name_of_columnIndex? (h : t.columnIndex? n = some i) :
    ∃ hi : i < t.columns.length, t.columns[i].name = n := by
  obtain ⟨hi, hname, -⟩ := List.findIdx?_eq_some_iff_getElem.mp h
  exact ⟨hi, of_decide_eq_true hname⟩

/-- Columns of different names have different places. -/
theorem columnIndex?_inj (hn : t.columnIndex? n = some i) (hm : t.columnIndex? m = some i) :
    n = m := by
  obtain ⟨_, hn⟩ := name_of_columnIndex? hn
  obtain ⟨_, hm⟩ := name_of_columnIndex? hm
  exact hn.symm.trans hm

end Table

/-! ### The fields of a key -/

theorem forall₂_filterMap {R : α → β → Prop} {f : α → Option β} {l : List α}
    (h : ∀ a ∈ l, ∃ b, f a = some b ∧ R a b) : List.Forall₂ R l (l.filterMap f) := by
  induction l with
  | nil => exact .nil
  | cons a l ih =>
    obtain ⟨b, hb, hR⟩ := h a List.mem_cons_self
    rw [List.filterMap_cons_some hb]
    exact .cons hR (ih fun a ha => h a (List.mem_cons_of_mem _ ha))

/-- The field of a key for a column of the name, never null. -/
def Table.IsKeyField (t : Table) (name : String) (f : Field) : Prop :=
  ∃ i, ∃ hi : i < t.columns.length, t.columns[i].name = name ∧ f = .ofColumn i t.columns[i] none

/-- The field of a key for the column of a name. -/
def Table.HasKeyField (t : Table) (name : String) (f : Field) : Prop :=
  ∃ i c, t.columnIndex? name = some i ∧ f = .ofColumn i c none

namespace Layout
variable {t : Table}

/-- **The fields of a key** are those of the columns that it names. -/
theorem forall₂_isKeyField (h : t.validate = .ok ()) (hkey : t.primaryKey ≠ []) :
    List.Forall₂ t.IsKeyField t.primaryKey (keyFieldsOf t) := by
  unfold keyFieldsOf
  rw [if_neg hkey]
  refine forall₂_filterMap fun n hn => ?_
  obtain ⟨i, c, hindex, hi, hcolumn⟩ := Table.exists_column_of_mem_primaryKey h hn
  obtain ⟨hlt, rfl⟩ := List.getElem?_eq_some_iff.mp hi
  obtain ⟨_, hname⟩ := Table.name_of_columnIndex? hindex
  exact ⟨.ofColumn i t.columns[i] none, by rw [hindex, hcolumn], i, hlt, hname, rfl⟩

/-- **The fields of a key**, one for each name. -/
theorem forall₂_keyFieldsOf (h : t.validate = .ok ()) (hkey : t.primaryKey ≠ []) :
    List.Forall₂ t.HasKeyField t.primaryKey (keyFieldsOf t) := by
  refine (forall₂_isKeyField h hkey).imp ?_
  rintro n f ⟨i, hi, rfl, rfl⟩
  exact ⟨i, _, Table.columnIndex?_name (Table.nodup_names_of_validate h) hi, rfl⟩

/-- A field after the key is of no column of the key. -/
theorem notMem_of_mem_valueFieldsFrom {key : List String} {f : Field} {i n : Nat}
    {cols : List Column} (h : f ∈ valueFieldsFrom key i n cols) {j : Nat} {c : Column}
    (hsource : f.source = .column j c) : c.name ∉ key := by
  induction cols generalizing i n with
  | nil => cases h
  | cons d cols ih =>
    unfold valueFieldsFrom at h
    split at h
    · exact ih h
    · next hd =>
      split at h
      all_goals
        rcases List.mem_cons.mp h with rfl | h
        · cases hsource
          exact hd
        · exact ih h

/-- **The columns of the key have no field after it.** -/
theorem source_ne_of_mem_valueFields {f : Field} (hf : f ∈ (of t).valueFields) {n : String}
    {i : Nat} (hn : n ∈ t.primaryKey) (hi : t.columnIndex? n = some i) (c : Column) :
    f.source ≠ .column i c := by
  intro hsource
  have hnot := notMem_of_mem_valueFieldsFrom hf hsource
  obtain ⟨j, bit, hj, rfl, -⟩ := exists_of_mem_valueFieldsFrom hf
  simp only [Field.ofColumn, Nat.zero_add, Source.column.injEq] at hsource
  obtain ⟨rfl, rfl⟩ := hsource
  obtain ⟨_, hname⟩ := Table.name_of_columnIndex? hi
  exact hnot (hname ▸ hn)

end Layout

/-! ### The values of a row -/

/-- **The column of a name has a value** among the values of a row. -/
def Table.HasValue (t : Table) (values : List Value) (name : String) (v : Value) : Prop :=
  ∃ i, t.columnIndex? name = some i ∧ values[i]? = some v

namespace Codec
variable {c : Codec}

/-- Fields of other columns leave a place alone. -/
theorem getElem?_place_of_ne {l : List (Field × Value)} {i : Nat}
    (h : ∀ m ∈ l, ∀ column, m.1.source ≠ .column i column) (values : List Value) :
    (place l values)[i]? = values[i]? := by
  induction l generalizing values with
  | nil => rfl
  | cons m l ih =>
    obtain ⟨f, v⟩ := m
    have hl := ih fun m hm => h m (List.mem_cons_of_mem _ hm)
    unfold place
    cases hsource : f.source with
    | column j column =>
      have hji : j ≠ i := by
        rintro rfl
        exact h (f, v) List.mem_cons_self column hsource
      simp only
      rw [hl, List.getElem?_set_ne hji]
    | rowId => exact hl _

/-- Values are put in the places of columns whose names differ. -/
theorem forall₂_place {t : Table} {names : List String} {fs : List Field} {key values : List Value}
    (hfs : List.Forall₂ t.HasKeyField names fs) (hnodup : names.Nodup)
    (hkey : key.length = fs.length) (hvalues : values.length = t.columns.length) :
    List.Forall₂ (t.HasValue (place (fs.zip key) values)) names key := by
  induction hfs generalizing key values with
  | nil =>
    rw [List.length_eq_zero_iff.mp hkey]
    exact .nil
  | @cons n f names fs hf hfs ih =>
    obtain ⟨i, column, hi, rfl⟩ := hf
    obtain _ | ⟨v, key⟩ := key
    · cases hkey
    obtain ⟨hn, hnodup⟩ := List.nodup_cons.mp hnodup
    refine .cons ⟨i, hi, ?_⟩ (ih hnodup (by simpa using hkey) (by rw [List.length_set, hvalues]))
    -- no other name of the key has this place
    have hlater : ∀ m ∈ fs.zip key, ∀ column, m.1.source ≠ .column i column := by
      intro m hm column hsource
      obtain ⟨n', hn', j, d, hj, hfield⟩ := exists_of_forall₂_right hfs (List.of_mem_zip hm).1
      rw [hfield] at hsource
      cases hsource
      exact hn (Table.columnIndex?_inj hi hj ▸ hn')
    obtain ⟨hlt, -⟩ := Table.name_of_columnIndex? hi
    show (place (fs.zip key) (values.set i v))[i]? = some v
    rw [getElem?_place_of_ne hlater, List.getElem?_set_self (by rw [hvalues]; exact hlt)]

theorem length_arrange (c : Codec) (key values : List Value) :
    (c.arrange key values).length = c.table.columns.length := by
  unfold arrange
  rw [length_place, length_place, List.length_replicate]

/-- **The columns of a key have its values.** -/
theorem forall₂_arrange {t : Table} {o : Options} (hc : Codec.of t o = .ok c)
    (hkey : t.primaryKey ≠ []) {key : List Value} (hlength : key.length = c.keyLength)
    (values : List Value) : List.Forall₂ (t.HasValue (c.arrange key values)) t.primaryKey key := by
  obtain ⟨hv, rfl, hl⟩ := of_eq_ok hc
  have hfields := Layout.forall₂_keyFieldsOf hv hkey
  rw [keyLength, hl] at hlength
  have hplaced := forall₂_place hfields (Table.nodup_primaryKey hv) hlength
    (List.length_replicate (a := Value.null))
  rw [List.forall₂_iff_zip] at hplaced ⊢
  refine ⟨hplaced.1, fun {n v} hm => ?_⟩
  obtain ⟨i, hi, hget⟩ := hplaced.2 hm
  refine ⟨i, hi, ?_⟩
  unfold arrange
  rw [getElem?_place_of_ne fun m hm' => ?_, hl]
  · exact hget
  · have hf := (List.of_mem_zip hm').1
    rw [hl] at hf
    exact Layout.source_ne_of_mem_valueFields hf (List.of_mem_zip hm).1 hi

theorem keyLength_eq {t : Table} {o : Options} (hc : Codec.of t o = .ok c)
    (hkey : t.primaryKey ≠ []) : c.keyLength = t.primaryKey.length := by
  obtain ⟨hv, -, hl⟩ := of_eq_ok hc
  unfold keyLength
  rw [hl]
  exact (Layout.forall₂_keyFieldsOf hv hkey).length_eq.symm

/-- **The values of a decoded row** are those of its key and those of its other fields. -/
theorem values_of_read {src : PageSource} {p : Page} {origin : Nat} {r : Record}
    (h : c.read src p true .full origin = .ok r) (hu : r.isUser) :
    ∃ values, r.values = c.arrange r.key values := by
  obtain ⟨header, -, ⟨hs, rfl⟩ | ⟨-, h⟩⟩ := read_eq_ok.mp h
  · -- a system record is no user record
    unfold Record.isUser Record.status Record.ofHeader at hu
    rcases hs with hs | hs <;> simp [hs] at hu
  · unfold readUser at h
    simp only at h
    split at h
    · exact absurd h Page.damaged_ne_ok
    · simp only [bind_eq_ok, Bool.not_true, Bool.false_eq_true, if_false, reduceCtorEq,
        pure_eq_ok] at h
      obtain ⟨_, -, ⟨key, _⟩, -, _, -, _, -, ⟨values, _⟩, -, rfl⟩ := h
      exact ⟨values, rfl⟩

end Codec

end Tablespace
