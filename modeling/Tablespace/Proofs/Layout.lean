import Tablespace.Proofs.Loading

/-! # The fields of a layout

The fields of a layout come from the columns of its table, each column in the key or after it. The
places in the null bitmap are below the number of nullable fields.

* `Table.validate_eq_ok_iff`: what the check of a table asks for.
* `Layout.exists_of_mem`: a field comes from the column at its place, and the null bitmap has room
  for it. `Layout.exists_field`: every column is the source of a field. -/

namespace Tablespace

/-! ### Columns -/

namespace Table
variable {t : Table}

theorem firstRepeated?_eq_none_iff {seen names : List String} :
    firstRepeated? seen names = none ↔ names.Nodup ∧ ∀ n ∈ names, n ∉ seen := by
  induction names generalizing seen with
  | nil => simp [firstRepeated?]
  | cons n names ih =>
    unfold firstRepeated?
    by_cases hn : n ∈ seen
    · simp [hn]
    · rw [if_neg hn, ih]
      simp only [List.nodup_cons, List.mem_cons, not_or]
      grind

/-- **Names that pass the check of a key** differ, and are those of columns that are not large. -/
theorem validateKey_eq_ok_iff {seen names : List String} :
    t.validateKey seen names = .ok () ↔
      names.Nodup ∧ (∀ n ∈ names, n ∉ seen) ∧
        ∀ n ∈ names, ∃ c, t.column? n = some c ∧ c.type.isLarge = false := by
  induction names generalizing seen with
  | nil => simp [validateKey]
  | cons n names ih =>
    unfold validateKey
    rcases hc : t.column? n with _ | c
    · simp [hc]
    · by_cases hn : n ∈ seen
      · simp [hn]
      · by_cases hl : c.type.isLarge = true
        · simp [hn, hl, hc]
        · simp only [if_neg hn, if_neg hl, ih, List.nodup_cons, List.mem_cons, not_or]
          grind

/-- **What the check of a table asks for.** -/
theorem validate_eq_ok_iff :
    t.validate = .ok () ↔
      t.columns ≠ [] ∧ (t.columns.map Column.name).Nodup ∧ t.primaryKey.Nodup ∧
        ∀ n ∈ t.primaryKey, ∃ c, t.column? n = some c ∧ c.type.isLarge = false := by
  unfold validate
  by_cases hnil : t.columns = []
  · simp [hnil]
  rw [if_neg hnil]
  have hnames : firstRepeated? [] (t.columns.map Column.name) = none ↔ _ :=
    firstRepeated?_eq_none_iff
  rcases hr : firstRepeated? [] (t.columns.map Column.name) with _ | n
  · have hdistinct := (hnames.mp hr).1
    simp only [validateKey_eq_ok_iff]
    simp [hnil, hdistinct]
  · have hrepeated : ¬ (t.columns.map Column.name).Nodup := fun h => by
      rw [hnames.mpr ⟨h, by simp⟩] at hr
      cases hr
    simp [hrepeated]

/-- **The columns of a table that passes its check have different names.** -/
theorem nodup_names_of_validate (h : t.validate = .ok ()) : (t.columns.map Column.name).Nodup :=
  (validate_eq_ok_iff.mp h).2.1

theorem layout_eq_ok_iff {l : Layout} :
    t.layout = .ok l ↔ t.validate = .ok () ∧ Layout.of t = l := by
  unfold layout
  rw [bind_eq_ok]
  exact ⟨fun ⟨_, hv, hl⟩ => ⟨hv, pure_eq_ok.mp hl⟩, fun ⟨hv, hl⟩ => ⟨(), hv, pure_eq_ok.mpr hl⟩⟩

theorem getElem?_of_columnIndex? {n : String} {i : Nat} (h : t.columnIndex? n = some i) :
    t.columns[i]? = t.column? n := by
  unfold columnIndex? at h
  unfold column?
  obtain ⟨hi, hname, hbefore⟩ := List.findIdx?_eq_some_iff_getElem.mp h
  rw [List.getElem?_eq_getElem hi, eq_comm]
  refine List.find?_eq_some_iff_getElem.mpr ⟨hname, i, hi, rfl, fun j hj => ?_⟩
  simpa using hbefore j hj

theorem columnIndex?_name (h : (t.columns.map Column.name).Nodup) {i : Nat}
    (hi : i < t.columns.length) : t.columnIndex? t.columns[i].name = some i := by
  unfold columnIndex?
  refine List.findIdx?_eq_some_iff_getElem.mpr ⟨hi, by simp, fun j hj => ?_⟩
  have hne := (List.pairwise_iff_getElem.mp h) j i (by simp; omega) (by simpa using hi) hj
  simpa using hne

end Table

/-! ### Fields -/

namespace Layout
variable {t : Table} {key : List String}

/-- A field of the columns from place `i` on comes from one of them that is not in the key. -/
theorem exists_of_mem_valueFieldsFrom {f : Field} {i n : Nat} {cols : List Column}
    (h : f ∈ valueFieldsFrom key i n cols) :
    ∃ j bit, ∃ hj : j < cols.length, f = .ofColumn (i + j) cols[j] bit ∧
      ∀ b ∈ bit, b < n + cols.countP fun c => c.name ∉ key ∧ c.nullable := by
  induction cols generalizing i n with
  | nil => cases h
  | cons c cols ih =>
    have later : ∀ {m : Nat}, f ∈ valueFieldsFrom key (i + 1) m cols →
        m + cols.countP (fun c => c.name ∉ key ∧ c.nullable) ≤
          n + (c :: cols).countP (fun c => c.name ∉ key ∧ c.nullable) →
        ∃ j bit, ∃ hj : j < (c :: cols).length, f = .ofColumn (i + j) (c :: cols)[j] bit ∧
          ∀ b ∈ bit, b < n + (c :: cols).countP fun c => c.name ∉ key ∧ c.nullable := by
      intro m hm hle
      obtain ⟨j, bit, hj, rfl, hbit⟩ := ih hm
      refine ⟨j + 1, bit, by simpa using hj, ?_, fun b hb => Nat.lt_of_lt_of_le (hbit b hb) hle⟩
      rw [List.getElem_cons_succ, show i + 1 + j = i + (j + 1) by omega]
    unfold valueFieldsFrom at h
    by_cases hkey : c.name ∈ key
    · rw [if_pos hkey] at h
      exact later h (by simp [hkey])
    · rw [if_neg hkey] at h
      by_cases hnull : c.nullable
      · rw [if_pos hnull] at h
        rcases List.mem_cons.mp h with rfl | h
        · exact ⟨0, some n, by simp, rfl, by simp [hkey, hnull]⟩
        · exact later h (by simp [hkey, hnull]; omega)
      · rw [if_neg hnull] at h
        rcases List.mem_cons.mp h with rfl | h
        · exact ⟨0, none, by simp, rfl, by simp⟩
        · exact later h (by simp [hnull])

theorem exists_mem_valueFieldsFrom {cols : List Column} {i n j : Nat} (hj : j < cols.length)
    (hkey : cols[j].name ∉ key) :
    ∃ f ∈ valueFieldsFrom key i n cols, f.source = .column (i + j) cols[j] := by
  induction cols generalizing i n j with
  | nil => cases hj
  | cons c cols ih =>
    unfold valueFieldsFrom
    cases j with
    | zero =>
      rw [List.getElem_cons_zero] at hkey
      rw [if_neg hkey]
      by_cases hnull : c.nullable
      · rw [if_pos hnull]
        exact ⟨_, List.mem_cons_self, rfl⟩
      · rw [if_neg hnull]
        exact ⟨_, List.mem_cons_self, rfl⟩
    | succ j =>
      have hj' : j < cols.length := by simpa using hj
      have later : ∀ m, ∃ f ∈ valueFieldsFrom key (i + 1) m cols,
          f.source = .column (i + (j + 1)) cols[j] := fun m => by
        rw [show i + (j + 1) = i + 1 + j by omega]
        exact ih hj' hkey
      rw [List.getElem_cons_succ]
      split
      · exact later n
      · split
        · obtain ⟨f, hf, hsource⟩ := later (n + 1)
          exact ⟨f, List.mem_cons_of_mem _ hf, hsource⟩
        · obtain ⟨f, hf, hsource⟩ := later n
          exact ⟨f, List.mem_cons_of_mem _ hf, hsource⟩

theorem exists_of_mem_keyFieldsOf {f : Field} (h : f ∈ keyFieldsOf t) :
    f = .rowId ∨ ∃ i, ∃ hi : i < t.columns.length, f = .ofColumn i t.columns[i] none := by
  unfold keyFieldsOf at h
  split at h
  · exact Or.inl (List.mem_singleton.mp h)
  · obtain ⟨n, -, hn⟩ := List.mem_filterMap.mp h
    split at hn
    · next i c hi hc =>
      cases hn
      rw [← Table.getElem?_of_columnIndex? hi] at hc
      obtain ⟨hlt, rfl⟩ := List.getElem?_eq_some_iff.mp hc
      exact Or.inr ⟨i, hlt, rfl⟩
    · cases hn

/-- **A field comes from the row id or from the column at its place**, and a place in the null
bitmap is below the number of nullable fields. -/
theorem exists_of_mem {f : Field} (h : f ∈ (of t).keyFields ++ (of t).valueFields) :
    f = .rowId ∨ ∃ i bit, ∃ hi : i < t.columns.length, f = .ofColumn i t.columns[i] bit ∧
      ∀ b ∈ bit, b < (of t).nullable := by
  rcases List.mem_append.mp h with h | h
  · rcases exists_of_mem_keyFieldsOf h with rfl | ⟨i, hi, rfl⟩
    · exact Or.inl rfl
    · exact Or.inr ⟨i, none, hi, rfl, nofun⟩
  · obtain ⟨j, bit, hj, rfl, hbit⟩ := exists_of_mem_valueFieldsFrom h
    rw [Nat.zero_add] at hbit
    refine Or.inr ⟨j, bit, hj, by rw [Nat.zero_add], hbit⟩

/-- **Every column is the source of a field**, in the key or after it. -/
theorem exists_field (h : t.validate = .ok ()) {i : Nat} (hi : i < t.columns.length) :
    ∃ f ∈ (of t).keyFields ++ (of t).valueFields, f.source = .column i t.columns[i] := by
  by_cases hkey : t.columns[i].name ∈ t.primaryKey
  · have hindex := Table.columnIndex?_name (Table.nodup_names_of_validate h) hi
    have hcolumn := Table.getElem?_of_columnIndex? hindex
    rw [List.getElem?_eq_getElem hi] at hcolumn
    refine ⟨.ofColumn i t.columns[i] none, List.mem_append_left _ ?_, rfl⟩
    show _ ∈ keyFieldsOf t
    unfold keyFieldsOf
    rw [if_neg (List.ne_nil_of_mem hkey)]
    exact List.mem_filterMap.mpr ⟨_, hkey, by rw [hindex, ← hcolumn]⟩
  · obtain ⟨f, hf, hsource⟩ := exists_mem_valueFieldsFrom (i := 0) (n := 0) hi hkey
    rw [Nat.zero_add] at hsource
    exact ⟨f, List.mem_append_right _ hf, hsource⟩

end Layout

theorem Codec.of_eq_ok {t : Table} {o : Options} {c : Codec} (h : Codec.of t o = .ok c) :
    t.validate = .ok () ∧ c.table = t ∧ c.layout = Layout.of t := by
  unfold Codec.of at h
  rw [bind_eq_ok] at h
  obtain ⟨layout, hl, h⟩ := h
  cases h
  obtain ⟨hv, rfl⟩ := Table.layout_eq_ok_iff.mp hl
  exact ⟨hv, rfl, rfl⟩

end Tablespace
