import Mathlib.Data.List.Nodup
import Tablespace.Proofs.KeyColumns

/-! # The order of fields

The layout of a table has one field for each of its columns: those of the key in the order of the
key, then the others as the table declares them. A table without a key has the row id for one. The
places in the null bitmap are given to the nullable columns after the key, one after another.

* `Layout.Orders`: where the fields of a layout stand. `Layout.Orders.hasRowId_iff`: the key is the
  row id if the table has none.
* `Layout.forall₂_valueFieldsFrom`, `Layout.filterMap_valueFieldsFrom`: the fields after the key,
  and their places in the null bitmap.
* `Layout.perm_sources`: each column is the source of one field.
* `Table.layout_orders`: a table has a layout if it passes its check, and what fails it. -/

namespace Tablespace

/-! ### Columns by name -/

namespace Table
variable {t : Table}

/-- A column is the one of its name. -/
theorem column?_eq_some_iff (h : (t.columns.map Column.name).Nodup) {n : String} {c : Column} :
    t.column? n = some c ↔ c ∈ t.columns ∧ c.name = n := by
  constructor
  · intro hc
    exact ⟨List.mem_of_find?_eq_some hc, by simpa using List.find?_some hc⟩
  · rintro ⟨hc, rfl⟩
    obtain ⟨i, hi, rfl⟩ := List.getElem_of_mem hc
    rw [← getElem?_of_columnIndex? (columnIndex?_name h hi), List.getElem?_eq_getElem hi]

/-- A key of columns that are not large, where columns differ in their names. -/
theorem forall_mem_primaryKey_iff (h : (t.columns.map Column.name).Nodup) :
    (∀ n ∈ t.primaryKey, ∃ c, t.column? n = some c ∧ c.type.isLarge = false) ↔
      (∀ n ∈ t.primaryKey, n ∈ t.columns.map Column.name) ∧
        ∀ c ∈ t.columns, c.name ∈ t.primaryKey → c.type.isLarge = false := by
  constructor
  · intro hkey
    refine ⟨fun n hn => ?_, fun c hc hn => ?_⟩
    · obtain ⟨c, hc, -⟩ := hkey n hn
      obtain ⟨hmem, rfl⟩ := (column?_eq_some_iff h).mp hc
      exact List.mem_map_of_mem hmem
    · obtain ⟨d, hd, hlarge⟩ := hkey c.name hn
      rw [(column?_eq_some_iff h).mpr ⟨hc, rfl⟩] at hd
      cases hd
      exact hlarge
  · rintro ⟨hnames, hlarge⟩ n hn
    obtain ⟨c, hc, rfl⟩ := List.mem_map.mp (hnames n hn)
    exact ⟨c, (column?_eq_some_iff h).mpr ⟨hc, rfl⟩, hlarge c hc hn⟩

end Table

/-! ### Where fields stand -/

/-- The columns of a table as sources of fields. -/
def Table.sources (t : Table) : List Source := t.columns.zipIdx.map fun m => .column m.2 m.1

/-- The field after the key for a column at its place: in the null bitmap if it is nullable. -/
def IsValueField (m : Column × Nat) (f : Field) : Prop :=
  ∃ bit : Option Nat, f = .ofColumn m.2 m.1 bit ∧ bit.isSome = m.1.nullable

namespace Layout
variable {t : Table} {key : List String}

/-- **Where the fields of a layout stand.** -/
structure Orders (t : Table) (l : Layout) : Prop where
  /-- Every column is the source of one field, and the row id is one if there is no key. -/
  sources : ((l.keyFields ++ l.valueFields).map Field.source).Perm
    ((if t.primaryKey = [] then [.rowId] else []) ++ t.sources)
  rowId : t.primaryKey = [] → l.keyFields = [.rowId]
  key : t.primaryKey ≠ [] → List.Forall₂ t.IsKeyField t.primaryKey l.keyFields
  /-- All other columns follow in the order of the table. -/
  rest : List.Forall₂ IsValueField (t.columns.zipIdx.filter fun m => m.1.name ∉ t.primaryKey)
    l.valueFields
  bits : l.valueFields.filterMap Field.nullBit = List.range l.nullable
  /-- The null bitmap has a byte for every place in it. -/
  fits : ∀ f ∈ l.keyFields ++ l.valueFields, ∀ b ∈ f.nullBit, b / 8 < l.nullBytes
  /-- A length that is never of two bytes is enough for every value. -/
  short : ∀ f ∈ l.keyFields ++ l.valueFields, f.isVariable = true → f.big = false →
    ∃ i c, f.source = .column i c ∧ c.type.maxBytes c.charset ≤ 255

/-- **The fields after the key** are those of the other columns, in their order. -/
theorem forall₂_valueFieldsFrom (key : List String) (i n : Nat) (cols : List Column) :
    List.Forall₂ IsValueField ((cols.zipIdx i).filter fun m => m.1.name ∉ key)
      (valueFieldsFrom key i n cols) := by
  induction cols generalizing i n with
  | nil => exact .nil
  | cons c cols ih =>
    unfold valueFieldsFrom
    rw [List.zipIdx_cons]
    by_cases hkey : c.name ∈ key
    · rw [List.filter_cons_of_neg (by simpa using hkey), if_pos hkey]
      exact ih _ _
    · rw [List.filter_cons_of_pos (by simpa using hkey), if_neg hkey]
      by_cases hnull : c.nullable
      · rw [if_pos hnull]
        exact .cons ⟨some n, rfl, hnull.symm⟩ (ih _ _)
      · rw [if_neg hnull]
        exact .cons ⟨none, rfl, by simpa using hnull⟩ (ih _ _)

/-- **Places in the null bitmap** follow one another from `n` on. -/
theorem filterMap_valueFieldsFrom (key : List String) (i n : Nat) (cols : List Column) :
    (valueFieldsFrom key i n cols).filterMap Field.nullBit =
      List.range' n (cols.countP fun c => c.name ∉ key ∧ c.nullable) := by
  induction cols generalizing i n with
  | nil => rfl
  | cons c cols ih =>
    unfold valueFieldsFrom
    by_cases hkey : c.name ∈ key
    · rw [if_pos hkey, ih, List.countP_cons_of_neg (by simp [hkey])]
    · rw [if_neg hkey]
      by_cases hnull : c.nullable
      · rw [if_pos hnull, List.countP_cons_of_pos (by simp [hkey, hnull]), List.range'_succ, ← ih]
        rfl
      · rw [if_neg hnull, List.countP_cons_of_neg (by simp [hnull]), ← ih (i + 1)]
        rfl

theorem map_source_valueFields (t : Table) :
    (of t).valueFields.map Field.source =
      (t.columns.zipIdx.filter fun m => m.1.name ∉ t.primaryKey).map fun m => .column m.2 m.1 := by
  rw [← List.forall₂_eq_eq_eq, List.forall₂_map_left_iff, List.forall₂_map_right_iff]
  refine (forall₂_valueFieldsFrom t.primaryKey 0 0 t.columns).flip.imp ?_
  rintro f m ⟨bit, rfl, -⟩
  rfl

/-! ### One field for each column -/

theorem nodup_of_forall₂ {R : α → β → Prop} (hR : ∀ a a' b, R a b → R a' b → a = a') {l : List α}
    {l' : List β} (h : List.Forall₂ R l l') (hl : l.Nodup) : l'.Nodup := by
  induction h with
  | nil => exact List.nodup_nil
  | @cons a b l l' hab h ih =>
    obtain ⟨ha, hl⟩ := List.nodup_cons.mp hl
    refine List.nodup_cons.mpr ⟨fun hb => ?_, ih hl⟩
    obtain ⟨a', ha', hab'⟩ := exists_of_forall₂_right h hb
    exact ha (hR a a' b hab hab' ▸ ha')

/-- No two columns of a table are the same source, as they stand in different places. -/
theorem nodup_sources (t : Table) : t.sources.Nodup := by
  refine List.Nodup.map ?_ (List.Nodup.of_map Prod.snd ?_)
  · rintro ⟨c, i⟩ ⟨d, j⟩ hs
    cases hs
    rfl
  · rw [List.zipIdx_map_snd]
    exact List.nodup_range'

theorem nodup_keySources (h : t.validate = .ok ()) (hkey : t.primaryKey ≠ []) :
    ((of t).keyFields.map Field.source).Nodup := by
  have hsources : List.Forall₂ (fun n s => ∃ i, ∃ hi : i < t.columns.length,
      t.columns[i].name = n ∧ s = .column i t.columns[i]) t.primaryKey
      ((of t).keyFields.map Field.source) := by
    rw [List.forall₂_map_right_iff]
    refine (forall₂_isKeyField h hkey).imp ?_
    rintro n f ⟨i, hi, hname, rfl⟩
    exact ⟨i, hi, hname, rfl⟩
  refine nodup_of_forall₂ ?_ hsources (Table.nodup_primaryKey h)
  rintro n m s ⟨i, hi, rfl, rfl⟩ ⟨j, hj, rfl, hs⟩
  cases hs
  rfl

/-- **The fields of a key** have the columns of the key for their sources. -/
theorem perm_keyFields (h : t.validate = .ok ()) (hkey : t.primaryKey ≠ []) :
    ((of t).keyFields.map Field.source).Perm
      ((t.columns.zipIdx.filter fun m => m.1.name ∈ t.primaryKey).map
        fun m => .column m.2 m.1) := by
  refine (List.perm_ext_iff_of_nodup (nodup_keySources h hkey)
    ((nodup_sources t).sublist (List.Sublist.map _ List.filter_sublist))).mpr fun s => ?_
  constructor
  · intro hs
    obtain ⟨f, hf, rfl⟩ := List.mem_map.mp hs
    obtain ⟨n, hn, i, hi, rfl, rfl⟩ := exists_of_forall₂_right (forall₂_isKeyField h hkey) hf
    refine List.mem_map.mpr ⟨(t.columns[i], i), List.mem_filter.mpr ⟨?_, by simpa using hn⟩, rfl⟩
    exact List.mem_zipIdx_iff_getElem?.mpr (List.getElem?_eq_getElem hi)
  · intro hs
    obtain ⟨⟨c, i⟩, hm, rfl⟩ := List.mem_map.mp hs
    obtain ⟨hm, hname⟩ := List.mem_filter.mp hm
    have hc : t.columns[i]? = some c := List.mem_zipIdx_iff_getElem?.mp hm
    obtain ⟨hi, rfl⟩ := List.getElem?_eq_some_iff.mp hc
    -- the column has a field, which is none of those after the key
    obtain ⟨f, hf, hsource⟩ := exists_field h hi
    rcases List.mem_append.mp hf with hf | hf
    · exact List.mem_map.mpr ⟨f, hf, hsource⟩
    · exact absurd (of_decide_eq_true hname) (notMem_of_mem_valueFieldsFrom hf hsource)

/-- **Every column is the source of one field**, and the row id is one if there is no key. -/
theorem perm_sources (h : t.validate = .ok ()) :
    (((of t).keyFields ++ (of t).valueFields).map Field.source).Perm
      ((if t.primaryKey = [] then [.rowId] else []) ++ t.sources) := by
  rw [List.map_append, map_source_valueFields]
  by_cases hkey : t.primaryKey = []
  · have hrow : (of t).keyFields = [.rowId] := if_pos hkey
    have hall : (t.columns.zipIdx.filter fun m => m.1.name ∉ t.primaryKey) = t.columns.zipIdx :=
      List.filter_eq_self.mpr fun m _ => by simp [hkey]
    rw [hrow, hall, if_pos hkey]
    exact .refl _
  · rw [if_neg hkey, List.nil_append]
    refine ((perm_keyFields h hkey).append_right _).trans ?_
    rw [← List.map_append]
    refine List.Perm.map _ ?_
    have hparts := List.filter_append_perm (fun m : Column × Nat => m.1.name ∈ t.primaryKey)
      t.columns.zipIdx
    simpa using hparts

/-- **The layout of a table that passes its check.** -/
theorem orders_of (h : t.validate = .ok ()) : (of t).Orders t where
  sources := perm_sources h
  rowId hkey := if_pos hkey
  key hkey := forall₂_isKeyField h hkey
  rest := forall₂_valueFieldsFrom _ _ _ _
  bits := by
    rw [List.range_eq_range']
    exact filterMap_valueFieldsFrom _ _ _ _
  fits := by
    intro f hf b hb
    obtain rfl | ⟨i, bit, hi, rfl, hbit⟩ := exists_of_mem hf
    · cases hb
    · have hlt := hbit b hb
      unfold nullBytes
      omega
  short := by
    intro f hf hvariable hbig
    obtain rfl | ⟨i, bit, hi, rfl, -⟩ := exists_of_mem hf
    · cases hvariable
    · refine ⟨i, _, rfl, ?_⟩
      simp only [Field.isVariable, Field.ofColumn] at hvariable hbig
      rw [hvariable] at hbig
      exact ColumnType.maxBytes_le_of_isBig hbig

/-- **The key is the row id** where the table has no key of its own. -/
theorem Orders.hasRowId_iff {l : Layout} (h : l.Orders t) :
    l.hasRowId = true ↔ t.primaryKey = [] := by
  unfold hasRowId
  rw [decide_eq_true_iff]
  by_cases hkey : t.primaryKey = []
  · rw [h.rowId hkey]
    exact iff_of_true rfl hkey
  · refine iff_of_false (fun hfirst => ?_) hkey
    obtain ⟨f, hf, hsource⟩ := Option.map_eq_some_iff.mp hfirst
    obtain ⟨_, -, _, _, -, rfl⟩ := exists_of_forall₂_right (h.key hkey) (List.mem_of_head? hf)
    cases hsource

end Layout

/-- **A table that passes its check has a layout** with one field for each column, in order. It
fails the check if it has no columns, two of one name, or a key that names a column twice, one that
does not exist or one of large values. -/
theorem Table.layout_orders (t : Table) :
    (t.validate = .ok () → ∃ l, t.layout = .ok l ∧ l.Orders t) ∧
      ((∃ e, t.layout = .error e) ↔
        t.columns = [] ∨ ¬ (t.columns.map Column.name).Nodup ∨ ¬ t.primaryKey.Nodup ∨
          (∃ n ∈ t.primaryKey, n ∉ t.columns.map Column.name) ∨
          ∃ c ∈ t.columns, c.name ∈ t.primaryKey ∧ c.type.isLarge = true) := by
  refine ⟨fun h => ⟨_, layout_eq_ok_iff.mpr ⟨h, rfl⟩, Layout.orders_of h⟩, ?_⟩
  have herror : (∃ e, t.layout = .error e) ↔ ¬ t.validate = .ok () := by
    have hok : t.validate = .ok () ↔ ∃ l, t.layout = .ok l :=
      ⟨fun h => ⟨_, layout_eq_ok_iff.mpr ⟨h, rfl⟩⟩, fun ⟨_, h⟩ => (layout_eq_ok_iff.mp h).1⟩
    rw [hok]
    cases t.layout <;> simp
  rw [herror, validate_eq_ok_iff]
  by_cases hnodup : (t.columns.map Column.name).Nodup
  · rw [forall_mem_primaryKey_iff hnodup]
    grind
  · simp [hnodup]

/-- The key stands second in its table, and two of the other columns may be null. -/
theorem Table.layout_orders_storedNote :
    StoredNote.table.validate = .ok () ∧
      ∃ l, StoredNote.table.layout = .ok l ∧ l.Orders StoredNote.table :=
  ⟨rfl, (layout_orders StoredNote.table).1 rfl⟩

end Tablespace
