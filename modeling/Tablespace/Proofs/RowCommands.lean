import Mathlib.Data.List.Forall2
import Tablespace.Command
import Tablespace.Proofs.KeyColumns
import Tablespace.Proofs.QueriesInRange
import Tablespace.Proofs.Range
import Tablespace.Proofs.Runs

/-! # Commands that show rows

A full scan, a range scan and a lookup are three ways to the same rows. Where the tree is well
formed, the commands that are built on them write the same lines: a scan without filters those of a
range without bounds, and a scan for the values of a whole key those of the range from that key to
itself and of its lookup.

* `Table.KeyParts`: the literals of a whole key.
* `Table.keyOf_intercalate`, `Table.exists_filters`: the key and the filters that literals give.
* `Reader.Tree.passes_iff`: a row passes the filters of a key if its own key is equal to it.
* `Command.scan_eq_range`: a scan and a range of the same rows write the same lines.
* `Command.rows_agree`: the three commands agree. -/

namespace Tablespace

/-! ### Members in order -/

theorem exists_mapM_eq_ok {f : α → Except ε β} {l : List α} (h : ∀ a ∈ l, ∃ b, f a = .ok b) :
    ∃ l', l.mapM f = .ok l' ∧ ∀ b, b ∈ l' ↔ ∃ a ∈ l, f a = .ok b := by
  induction l with
  | nil => exact ⟨[], rfl, by simp⟩
  | cons a l ih =>
    obtain ⟨b, hb⟩ := h a List.mem_cons_self
    obtain ⟨l', hl, hmem⟩ := ih fun a ha => h a (List.mem_cons_of_mem _ ha)
    refine ⟨b :: l', by rw [List.mapM_cons, hb, hl]; rfl, fun b' => ?_⟩
    rw [List.mem_cons, hmem]
    simp [hb, eq_comm]

/-- What passes a test that one member of a list passes. -/
theorem filter_eq_singleton {p : α → Bool} {l : List α} (hl : l.Nodup) {a : α} (ha : a ∈ l)
    (hp : p a) (h : ∀ b ∈ l, p b → b = a) : l.filter p = [a] := by
  refine List.perm_singleton.mp ?_
  refine (List.perm_ext_iff_of_nodup (hl.filter p) (by simp)).mpr fun b => ?_
  rw [List.mem_filter, List.mem_singleton]
  exact ⟨fun hb => h b hb.1 hb.2, fun hb => hb ▸ ⟨ha, hp⟩⟩

/-! ### Keys as text -/

theorem commaParts_intercalate {parts : List String} (hne : parts ≠ [])
    (h : ∀ p ∈ parts, ',' ∉ p.toList ∧ Text.Bare p.toList) :
    commaParts (",".intercalate parts) = parts.map String.toList := by
  have hsplit : (",".intercalate parts).toList.splitOn ',' = parts.map String.toList := by
    rw [String.toList_intercalate]
    refine List.splitOn_intercalate ',' ?_ (by simpa using hne)
    simpa using fun p hp => (h p hp).1
  unfold commaParts
  rw [hsplit, List.map_map]
  exact List.map_congr_left fun p hp => (h p hp).2.trim_eq

namespace Table
variable {t : Table} {parts filters : List String} {key : Key}

/-- **The literals of a whole key**, one for each of its columns. None has a comma or a blank at an
end, nor has the name of a column an equals sign or a blank at an end. -/
structure KeyParts (t : Table) (parts : List String) (key : Key) : Prop where
  declared : t.primaryKey ≠ []
  whole : parts.length = t.primaryKey.length
  part : ∀ p ∈ parts, ',' ∉ p.toList ∧ Text.Bare p.toList
  name : ∀ n ∈ t.primaryKey, '=' ∉ n.toList ∧ Text.Bare n.toList
  literal : List.Forall₂ (fun m v => t.literalOf m.2 m.1 = .ok v) (parts.zip t.primaryKey) key

theorem KeyParts.length_key (h : t.KeyParts parts key) : key.length = t.primaryKey.length := by
  rw [← h.literal.length_eq, List.length_zip, h.whole, Nat.min_self]

/-- **Literals between commas give their key.** -/
theorem keyOf_intercalate (h : t.KeyParts parts key) :
    t.keyOf (",".intercalate parts) = .ok key := by
  have hne : parts ≠ [] := by
    rintro rfl
    exact h.declared (List.length_eq_zero_iff.mp h.whole.symm)
  unfold keyOf
  simp only
  rw [commaParts_intercalate hne h.part, if_neg h.declared, List.length_map, h.whole,
    if_neg (Nat.lt_irrefl _), List.zip_map_left]
  refine mapM_eq_ok_iff.mpr (List.forall₂_map_left_iff.mpr (h.literal.imp fun m v hm => ?_))
  simpa using hm

/-- A name, an equals sign and a literal. -/
def filterText (name literal : String) : String := name ++ "=" ++ literal

/-- **The filter of a name and a literal.** -/
theorem filterOf_filterText {name literal : String} (hname : '=' ∉ name.toList)
    (hbare : Text.Bare name.toList) {i : Nat} (hi : t.columnIndex? name = some i) {v : Value}
    (hv : t.literalOf name literal = .ok v) :
    t.filterOf (filterText name literal) = .ok (i, v) := by
  have hlist : (filterText name literal).toList = name.toList ++ '=' :: literal.toList := by
    simp [filterText]
  have hne : ∀ c ∈ name.toList, decide (c ≠ '=') = true := fun c hc =>
    decide_eq_true fun e => hname (e ▸ hc)
  unfold filterOf
  rw [hlist, List.dropWhile_append_of_pos hne, List.takeWhile_append_of_pos hne]
  simp [hbare.trim_eq, hi, hv, bind, Except.bind, pure, Except.pure]

/-- The filters of a key, one for each of its columns. -/
def keyFilters (t : Table) (parts : List String) : List String :=
  (parts.zip t.primaryKey).map fun m => filterText m.2 m.1

theorem exists_filters (hv : t.validate = .ok ()) (h : t.KeyParts parts key)
    (hf : ∀ f, f ∈ filters ↔ f ∈ t.keyFilters parts) :
    ∃ fs, filters.mapM t.filterOf = .ok fs ∧
      ∀ b, b ∈ fs ↔ ∃ m ∈ parts.zip t.primaryKey, t.filterOf (filterText m.2 m.1) = .ok b := by
  obtain ⟨fs, hfs, hmem⟩ := exists_mapM_eq_ok (f := t.filterOf) (l := filters) fun f hf' => by
    obtain ⟨m, hm, rfl⟩ := List.mem_map.mp ((hf f).mp hf')
    obtain ⟨v, -, hlit⟩ := exists_of_forall₂_right h.literal.flip hm
    obtain ⟨i, c, hi, -⟩ := exists_column_of_mem_primaryKey hv (List.of_mem_zip hm).2
    obtain ⟨hname, hbare⟩ := h.name m.2 (List.of_mem_zip hm).2
    exact ⟨_, filterOf_filterText hname hbare hi hlit⟩
  refine ⟨fs, hfs, fun b => (hmem b).trans ?_⟩
  simp only [hf, keyFilters, List.mem_map]
  constructor
  · rintro ⟨_, ⟨m, hm, rfl⟩, hb⟩
    exact ⟨m, hm, hb⟩
  · rintro ⟨m, hm, hb⟩
    exact ⟨_, ⟨m, hm, rfl⟩, hb⟩

/-- A record meets the filters of a key if its own key is equal to it. The values of its key are
given by the names of their columns. -/
theorem meets_iff {rec : Record} {names : List String} {own : List Value}
    (hown : List.Forall₂ (t.HasValue rec.values) names own)
    (hname : ∀ n ∈ names, '=' ∉ n.toList ∧ Text.Bare n.toList)
    (hlen : parts.length = names.length)
    (hlit : List.Forall₂ (fun m v => t.literalOf m.2 m.1 = .ok v) (parts.zip names) key) :
    (∀ m ∈ parts.zip names, ∀ b, t.filterOf (filterText m.2 m.1) = .ok b →
      ∃ w, rec.value? b.1 = some w ∧ w.compare b.2 = .eq) ↔ compareKeys own key = .eq := by
  induction hown generalizing parts key with
  | nil => simp [compareKeys]
  | @cons n w names own hw hown ih =>
    obtain _ | ⟨p, parts⟩ := parts
    · cases hlen
    rw [List.zip_cons_cons] at hlit ⊢
    obtain _ | ⟨hv, hlit⟩ := hlit
    next v key =>
    obtain ⟨i, hi, hget⟩ := hw
    obtain ⟨hn, hbare⟩ := hname n List.mem_cons_self
    have hrest := ih (fun m hm => hname m (List.mem_cons_of_mem _ hm)) (by simpa using hlen) hlit
    have hfirst : t.filterOf (filterText n p) = .ok (i, v) := filterOf_filterText hn hbare hi hv
    rw [List.forall_mem_cons, hrest, compareKeys_cons, Ordering.then_eq_eq]
    simp [hfirst, Record.value?, hget]

theorem lt_of_columnsOf {columns : Option String} {cs : List Nat}
    (h : optionally t.columnsOf columns = .ok (some cs)) : ∀ i ∈ cs, i < t.columns.length := by
  intro i hi
  cases columns with
  | none => cases h
  | some text =>
    cases htext : t.columnsOf text with
    | error e => rw [optionally, htext] at h; cases h
    | ok cs' =>
      rw [optionally, htext] at h
      cases h
      obtain ⟨name, -, hname⟩ := exists_of_forall₂_right (mapM_eq_ok_iff.mp htext) hi
      unfold columnOf at hname
      split at hname
      · next hindex =>
        cases hname
        exact (name_of_columnIndex? hindex).1
      · cases hname

end Table

theorem Record.passes_iff {filters : List (Nat × Value)} {rec : Record} :
    rec.passes filters ↔ ∀ b ∈ filters, ∃ w, rec.value? b.1 = some w ∧ w.compare b.2 = .eq := by
  unfold Record.passes
  rw [List.all_eq_true]
  refine forall₂_congr fun b _ => ?_
  cases rec.value? b.1 <;> simp

/-! ### Rows of a tree -/

/-- What holds of a reader that files have given. -/
theorem Files.reader_eq_ok {files : Files} {o : Options} {path definition : String} {r : Reader}
    (h : files.reader o path definition = .ok r) :
    Codec.of r.table o = .ok r.codec ∧ r.options = o := by
  unfold Files.reader Reader.of at h
  simp only [bind_eq_ok, pure_eq_ok] at h
  obtain ⟨_, -, t, -, i, -, codec, hcodec, root, -, rfl⟩ := h
  obtain ⟨-, rfl, -⟩ := Codec.of_eq_ok hcodec
  exact ⟨hcodec, rfl⟩

namespace Reader
variable {r : Reader} {xs : List Listing} {a : Record}

/-- Every row of a tree is decoded as a whole. -/
theorem Tree.values_of_mem (h : r.Tree xs) (ha : a ∈ rowsOf xs) :
    a.key.length = r.keyLength ∧ ∃ values, a.values = r.codec.arrange a.key values := by
  obtain ⟨level, h⟩ := h
  obtain ⟨x, hx, hmem⟩ := List.mem_flatMap.mp ha
  obtain ⟨hx, hleaf⟩ := List.mem_filter.mp hx
  have hl := h.lists x hx
  have hread := hl.decoded a (Lists.mem_chain hmem)
  unfold decodeAt scanDepth at hread
  rw [hleaf, if_pos rfl] at hread
  exact ⟨hl.length_key hmem, Codec.values_of_read hread (hl.user a hmem)⟩

theorem Tree.length_values (h : r.Tree xs) (ha : a ∈ rowsOf xs) :
    a.values.length = r.table.columns.length := by
  obtain ⟨-, values, e⟩ := h.values_of_mem ha
  rw [e, Codec.length_arrange]
  rfl

/-- **The columns of the key have the values of the key of a row.** -/
theorem Tree.forall₂_key (h : r.Tree xs) {o : Options} (hc : Codec.of r.table o = .ok r.codec)
    (hkey : r.table.primaryKey ≠ []) (ha : a ∈ rowsOf xs) :
    List.Forall₂ (r.table.HasValue a.values) r.table.primaryKey a.key := by
  obtain ⟨hlength, values, e⟩ := h.values_of_mem ha
  rw [e]
  exact Codec.forall₂_arrange hc hkey hlength values

/-- **The rows that pass the filters of a key** are those whose own key is equal to it. -/
theorem Tree.passes_iff (h : r.Tree xs) {o : Options} (hc : Codec.of r.table o = .ok r.codec)
    {parts : List String} {key : Key} (hparts : r.table.KeyParts parts key)
    {fs : List (Nat × Value)} (hfs : ∀ b, b ∈ fs ↔
      ∃ m ∈ parts.zip r.table.primaryKey, r.table.filterOf (Table.filterText m.2 m.1) = .ok b)
    (ha : a ∈ rowsOf xs) : a.passes fs ↔ compareKeys a.key key = .eq := by
  have howns := h.forall₂_key hc hparts.declared ha
  rw [Record.passes_iff, ← Table.meets_iff howns hparts.name hparts.whole hparts.literal]
  constructor
  · intro hall m hm b hb
    exact hall b ((hfs b).mpr ⟨m, hm, hb⟩)
  · intro hall b hb
    obtain ⟨m, hm, hb⟩ := (hfs b).mp hb
    exact hall m hm b hb

theorem Tree.nodup_rowsOf (h : r.Tree xs) (ho : Key.OrderedOn (HasKey xs)) : (rowsOf xs).Nodup := by
  obtain ⟨level, h⟩ := h
  refine (h.rows_ascending ho fun _ hk => hk).imp_of_mem ?_
  rintro a b ha - hab rfl
  rw [compareKeys_self ho (hasKey_of_mem_rowsOf ha)] at hab
  cases hab

/-- **A lookup finds the shown rows whose key is equal to its key**, at most one. -/
theorem WellFormed.exists_found (h : r.WellFormed xs) {key : Key} (hkey : key.length = r.keyLength)
    (ho : Key.OrderedOn fun k => HasKey xs k ∨ k = key) :
    ∃ found : Option Record, r.get key = .ok found ∧
      ((rowsOf xs).filter r.isVisible).filter (fun a => compareKeys a.key key = .eq) =
        found.toList := by
  have hnodup := h.tree.nodup_rowsOf (ho.mono fun _ => Or.inl)
  rcases h.get_cases ho (fun _ => Or.inl) (Or.inr rfl) hkey with
    ⟨a, ha, heq, hget, hunique⟩ | ⟨hnone, hget⟩
  · -- one row has the key, and it is found if it is shown
    refine ⟨_, hget, ?_⟩
    rw [List.filter_comm, filter_eq_singleton hnodup ha (decide_eq_true heq) fun b hb hbeq =>
      hunique b hb (of_decide_eq_true hbeq)]
    split <;> simp [*]
  · refine ⟨none, hget, List.filter_eq_nil_iff.mpr fun b hb hbeq => ?_⟩
    exact hnone b (List.mem_filter.mp hb).1 (of_decide_eq_true hbeq)

/-- The range from a whole key to itself gives what the lookup of it finds. -/
theorem rangeRun_self {key : Key} (hne : key ≠ []) (hkey : key.length = r.keyLength)
    (heq : compareKeys key key = .eq) {found : Option Record} (hget : r.get key = .ok found) :
    r.rangeRun (some key) (some key) = .done found.toList := by
  have hbound : key ≠ [] ∧ key.length ≤ r.keyLength := ⟨hne, hkey.le⟩
  have hrange := range_of_eq hbound hbound heq (Nat.le_refl _)
  rw [if_pos ⟨hkey, hkey⟩, hget] at hrange
  unfold rangeRun
  rw [hrange]
  exact drain_of_none rfl

/-- The range without bounds gives all shown rows. -/
theorem WellFormed.rangeRun_none (h : r.WellFormed xs) (hs : r.options.strictRecordCount = false)
    (ho : Key.OrderedOn (HasKey xs)) :
    r.rangeRun none none = .done ((rowsOf xs).filter r.isVisible) := by
  have hbound : ∀ k ∈ (none : Option Key), HasKey xs k ∧ k.length ≤ r.keyLength := by simp
  have hwhole : ∀ k ∈ (none : Option Key), k ≠ [] ∧ k.length ≤ r.keyLength := by simp
  obtain ⟨s, hrange, hdrain⟩ :=
    exists_rangeOfLeaves h hs ho (fun _ => id) hbound hbound (by simp)
  rw [← range_eq hwhole hwhole (by simp)] at hrange
  unfold rangeRun
  rw [hrange, Run.ofExcept, hdrain, List.filter_eq_self.mpr]
  simp [Key.InRange]

end Reader

/-- A record with the values of columns that it has. -/
def Record.onto (cs : List Nat) (rec : Record) : Record :=
  { rec with values := cs.map fun i => rec.values.getD i .null }

theorem Record.project_eq_ok {rec : Record} {cs : List Nat} (h : ∀ i ∈ cs, i < rec.values.length) :
    rec.project cs = .ok (rec.onto cs) := by
  have hvalues : cs.mapM rec.valueAt = .ok (cs.map fun i => rec.values.getD i .null) := by
    refine mapM_eq_ok_iff.mpr (List.forall₂_map_right_iff.mpr (List.forall₂_same.mpr ?_))
    intro i hi
    simp [valueAt, value?, h i hi]
  unfold project
  rw [hvalues]
  rfl

/-! ### Lines -/

namespace Command

section Projection
variable {t : Table} {columns : Option (List Nat)} {l : List Record}

theorem rowLines_eq_done {project : Record → Record}
    (h : ∀ rec ∈ l, projectedLine t columns rec = .ok (Row.line t columns (project rec))) :
    rowLines t columns (.done l) = .done ((l.map project).map (Row.line t columns)) := by
  have hlines : Run.concat (fun rec => .ofExcept (projectedLine t columns rec) fun s => .done [s])
      (l.map id) = (.done (l.flatMap fun rec => [Row.line t columns (project rec)]) :
        Run Error String) :=
    Run.concat_map_eq_done fun rec hrec => by rw [id, h rec hrec]; rfl
  rw [List.map_id, ← List.map_eq_flatMap] at hlines
  rw [List.map_map]
  exact (Run.andThen_done_nil _).trans hlines

/-- **Rows that have some columns** are projected onto them and written line by line. -/
theorem exists_projectAll (h : ∀ cs ∈ columns, ∀ i ∈ cs, ∀ rec ∈ l, i < rec.values.length) :
    ∃ rows, Reader.projectAll columns l = .ok rows ∧
      rowLines t columns (.done l) = .done (rows.map (Row.line t columns)) := by
  cases columns with
  | none =>
    refine ⟨l, rfl, (rowLines_eq_done fun rec _ => rfl).trans ?_⟩
    rw [List.map_id']
  | some cs =>
    have hproject : ∀ rec ∈ l, rec.project cs = .ok (rec.onto cs) := fun rec hrec =>
      Record.project_eq_ok fun i hi => h cs rfl i hi rec hrec
    have hall : l.mapM (fun rec => rec.project cs) = .ok (l.map (Record.onto cs)) :=
      mapM_eq_ok_iff.mpr (List.forall₂_map_right_iff.mpr (List.forall₂_same.mpr hproject))
    refine ⟨_, hall, rowLines_eq_done fun rec hrec => ?_⟩
    unfold projectedLine
    simp only [hproject rec hrec]
    rfl

end Projection

section
variable {files : Files} {o : Options} {path definition : String} {r : Reader}
variable {filters : List String} {fs : List (Nat × Value)} {l : List Record}

/-- **A scan and a range of the same rows write the same lines**, whatever the columns. -/
theorem scan_eq_range {lower upper : Option String} {lo hi : Option Key}
    (hr : files.reader o path definition = .ok r) (hlo : optionally r.table.keyOf lower = .ok lo)
    (hhi : optionally r.table.keyOf upper = .ok hi) (hf : filters.mapM r.table.filterOf = .ok fs)
    (hall : r.all = .ok l) (hrun : r.rangeRun lo hi = .done (l.filter (Record.passes fs)))
    (hl : ∀ rec ∈ l, rec.values.length = r.table.columns.length) (columns : Option String) :
    (scan path definition filters columns).lines files o =
      (range path definition lower upper columns).lines files o := by
  unfold lines
  simp only [hr, hlo, hhi, hf, Run.ofExcept]
  cases hc : optionally r.table.columnsOf columns with
  | error e => rfl
  | ok cs =>
    have hplaces : ∀ cs' ∈ cs, ∀ i ∈ cs', ∀ rec ∈ l.filter (Record.passes fs),
        i < rec.values.length := by
      intro cs' hcs i hi rec hrec
      rw [hl rec (List.mem_filter.mp hrec).1]
      exact Table.lt_of_columnsOf (hc.trans (congrArg _ hcs)) i hi
    obtain ⟨rows, hrows, hlines⟩ := exists_projectAll (t := r.table) hplaces
    simp only [Reader.select, hall, bind, Except.bind, hrows, hrun, hlines]

/-- The lines of a scan of whole rows. -/
theorem scan_eq_done (hr : files.reader o path definition = .ok r)
    (hf : filters.mapM r.table.filterOf = .ok fs) (hall : r.all = .ok l) :
    (scan path definition filters none).lines files o =
      .done ((l.filter (Record.passes fs)).map (Row.line r.table none)) := by
  unfold lines
  simp only [hr, hf, Run.ofExcept, optionally, Reader.select, hall, bind, Except.bind]
  rfl

end

/-- **The commands that show rows agree.** Where the tree of a table is well formed, a scan without
filters and a range without bounds write the same lines, whatever the columns. So do, for the
literals of a whole key, the lookup of it, the range from it to itself and a scan for its values;
the line is that of the one shown row with this key, if there is one. -/
theorem rows_agree {files : Files} {o : Options} {path definition : String} {r : Reader}
    {xs : List Listing} (hr : files.reader o path definition = .ok r) (h : r.WellFormed xs)
    (hs : o.strictRecordCount = false) (ho : Key.OrderedOn (HasKey xs)) :
    (∀ columns, (scan path definition [] columns).lines files o =
      (range path definition none none columns).lines files o) ∧
    ∀ parts key, r.table.KeyParts parts key → Key.OrderedOn (fun k => HasKey xs k ∨ k = key) →
      ∃ found : Option Record,
        (∀ a, found = some a ↔ a ∈ rowsOf xs ∧ r.isVisible a ∧ compareKeys a.key key = .eq) ∧
        (get path definition (",".intercalate parts)).lines files o =
          .done (found.toList.map (Row.line r.table none)) ∧
        ∀ filters, (∀ f, f ∈ filters ↔ f ∈ r.table.keyFilters parts) →
          (scan path definition filters none).lines files o =
            .done (found.toList.map (Row.line r.table none)) ∧
          ∀ columns, (scan path definition filters columns).lines files o =
            (range path definition (some (",".intercalate parts)) (some (",".intercalate parts))
              columns).lines files o := by
  obtain ⟨hc, rfl⟩ := Files.reader_eq_ok hr
  have hall := Reader.all_eq_ok h.tree hs
  have hlength : ∀ a ∈ (rowsOf xs).filter r.isVisible,
      a.values.length = r.table.columns.length := fun a ha =>
    h.tree.length_values (List.mem_filter.mp ha).1
  refine ⟨?_, fun parts key hparts hok => ?_⟩
  · -- without filters and bounds both commands show all rows
    have hrun := h.rangeRun_none hs ho
    have hpass : ∀ l, List.filter (Record.passes []) l = l := fun l =>
      List.filter_eq_self.mpr fun _ _ => rfl
    rw [← hpass (List.filter r.isVisible _)] at hrun
    exact scan_eq_range hr rfl rfl rfl hall hrun hlength
  · have hkey : key.length = r.keyLength :=
      hparts.length_key.trans (Codec.keyLength_eq hc hparts.declared).symm
    have hne : key ≠ [] := by
      rintro rfl
      exact hparts.declared (List.length_eq_zero_iff.mp hparts.length_key.symm)
    have hkeyOf := Table.keyOf_intercalate hparts
    obtain ⟨found, hget, hfound⟩ := h.exists_found hkey hok
    refine ⟨found, fun a => ?_, ?_, fun filters hfilters => ?_⟩
    · rw [← Option.mem_toList, ← hfound, List.mem_filter, List.mem_filter, and_assoc,
        decide_eq_true_iff]
    · unfold lines
      simp only [hr, hkeyOf, hget, Run.ofExcept]
    · obtain ⟨fs, hfs, hmem⟩ := Table.exists_filters (Codec.of_eq_ok hc).1 hparts hfilters
      -- the filters let through what the lookup finds
      have hpass : ((rowsOf xs).filter r.isVisible).filter (Record.passes fs) = found.toList := by
        rw [← hfound]
        refine List.filter_congr fun a ha => ?_
        rw [Bool.eq_iff_iff, decide_eq_true_iff]
        exact h.tree.passes_iff hc hparts hmem (List.mem_filter.mp ha).1
      refine ⟨by rw [scan_eq_done hr hfs hall, hpass], ?_⟩
      have hlower : optionally r.table.keyOf (some (",".intercalate parts)) = .ok (some key) := by
        rw [optionally, hkeyOf]
        rfl
      refine scan_eq_range hr hlower hlower hfs hall ?_ hlength
      rw [hpass]
      exact Reader.rangeRun_self hne hkey (compareKeys_self hok (Or.inr rfl)) hget

end Command

/-- The image of the tree of two leaves in one file, and the definition of its table in another. -/
def TwoLeaves.files : Files := fun path =>
  if path = "t.ibd" then some image.data
  else if path = "t.json" then some (.ofList (Utf8.encode Reader.TwoLeaves.definition))
  else none

theorem TwoLeaves.reader_files : files.reader .default "t.ibd" "t.json" = .ok reader := by
  have htext : files.text "t.json" = .ok Reader.TwoLeaves.definition := by decide +kernel
  have htable : Table.ofJson Reader.TwoLeaves.definition = .ok reader.table := by decide +kernel
  have himage : files.image .default "t.ibd" = .ok image := rfl
  have hfind : Root.find image .default = .ok (3, root.node.index) := by decide +kernel
  unfold Files.reader Reader.of
  rw [htext, himage]
  simp only [bind, Except.bind, htable, hfind]
  rfl

namespace Command

/-- The row of the least key of the tree of two leaves, shown in four ways. -/
theorem rows_agree_twoLeaves :
    (∀ columns, (scan "t.ibd" "t.json" [] columns).lines TwoLeaves.files .default =
      (range "t.ibd" "t.json" none none columns).lines TwoLeaves.files .default) ∧
    (get "t.ibd" "t.json" "1").lines TwoLeaves.files .default =
      .done [Row.line TwoLeaves.reader.table none (TwoLeaves.row 4 125 2 22 1)] ∧
    (scan "t.ibd" "t.json" ["id=1"] none).lines TwoLeaves.files .default =
      .done [Row.line TwoLeaves.reader.table none (TwoLeaves.row 4 125 2 22 1)] ∧
    ∀ columns, (scan "t.ibd" "t.json" ["id=1"] columns).lines TwoLeaves.files .default =
      (range "t.ibd" "t.json" (some "1") (some "1") columns).lines TwoLeaves.files .default := by
  have hparts : TwoLeaves.reader.table.KeyParts ["1"] [.int 1] :=
    { declared := by decide
      whole := rfl
      part := by
        rintro _ (_ | ⟨_, ⟨⟩⟩)
        exact ⟨by decide, by rintro _ ⟨⟩; rfl, by rintro _ ⟨⟩; rfl⟩
      name := by
        rintro _ (_ | ⟨_, ⟨⟩⟩)
        exact ⟨by decide, by rintro _ ⟨⟩; rfl, by rintro _ ⟨⟩; rfl⟩
      literal := .cons (by decide +kernel) .nil }
  obtain ⟨hall, hkey⟩ := rows_agree TwoLeaves.reader_files TwoLeaves.wellFormed rfl
    ((TwoLeaves.orderedOn (K := fun _ => False) nofun).mono fun _ => Or.inl)
  obtain ⟨found, hfound, hget, hscan⟩ := hkey ["1"] [.int 1] hparts
    (TwoLeaves.orderedOn (K := fun k => k = [.int 1]) (by
      rintro _ rfl v hv
      exact ⟨1, List.mem_singleton.mp hv⟩))
  obtain rfl := (hfound (TwoLeaves.row 4 125 2 22 1)).mpr (by decide +kernel)
  obtain ⟨hdone, hrange⟩ := hscan ["id=1"] fun f => by
    rw [show TwoLeaves.reader.table.keyFilters ["1"] = ["id=1"] by decide +kernel]
  exact ⟨hall, hget, hdone, hrange⟩

end Command
end Tablespace
