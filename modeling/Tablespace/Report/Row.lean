import Tablespace.Record.Basic
import Tablespace.Table.Basic

/-! # Rows as JSON

A row is an object on a line of its own, its members in the order of their names. Of several
members of one name the last counts.

* `Row.members`: the members of a row. `Row.line`: its line.
* `Row.ordered_members`, `Row.lookup_members`: in which order they are, and what they hold. -/

namespace Tablespace.Row

/-- The name under which the hidden row id is shown. -/
def rowIdName : String := "DB_ROW_ID"

/-- Members in the order of their names with one more, which takes the place of one of its name. -/
def insert (name : String) (v : Json) : List (String × Json) → List (String × Json)
  | [] => [(name, v)]
  | m :: rest =>
    if name = m.1 then (name, v) :: rest
    else if name < m.1 then (name, v) :: m :: rest
    else m :: insert name v rest

/-- The names of some columns of a table, or of all of them. -/
def columnNames (t : Table) (columns : Option (List Nat)) : List String :=
  match columns with
  | none => t.columns.map Column.name
  | some cs => cs.filterMap fun i => t.columns[i]?.map Column.name

/-- The row id of a record, shown if the table has no primary key. -/
def rowId (t : Table) (r : Record) : List (String × Value) :=
  if t.primaryKey = [] then (r.key.head?.map fun v => (rowIdName, v)).toList else []

/-- **The members of a row.** -/
def members (t : Table) (r : Record) (columns : Option (List Nat)) : List (String × Json) :=
  (rowId t r ++ (columnNames t columns).zip r.values).foldl
    (fun ms m => insert m.1 m.2.toRowJson ms) []

/-- **The line of a row.** -/
def line (t : Table) (columns : Option (List Nat)) (r : Record) : String :=
  (Json.record (members t r columns)).compact ++ "\n"

/-! ### What a row shows -/

variable {ms : List (String × Json)} {name other : String} {v : Json}

/-- Members in the strict order of their names. -/
def Ordered (ms : List (String × Json)) : Prop := ms.Pairwise fun a b => a.1 < b.1

theorem mem_insert {m : String × Json} (h : m ∈ insert name v ms) : m = (name, v) ∨ m ∈ ms := by
  induction ms with
  | nil => exact .inl (List.mem_singleton.mp h)
  | cons a ms ih =>
    unfold insert at h
    split at h
    · exact (List.mem_cons.mp h).imp_right (List.mem_cons_of_mem _)
    · split at h
      · exact List.mem_cons.mp h
      · rcases List.mem_cons.mp h with h | h
        · exact .inr (h ▸ List.mem_cons_self)
        · exact (ih h).imp_right (List.mem_cons_of_mem _)

theorem Ordered.insert (h : Ordered ms) : Ordered (insert name v ms) := by
  induction ms with
  | nil => exact List.pairwise_singleton ..
  | cons a ms ih =>
    obtain ⟨hfirst, hrest⟩ := List.pairwise_cons.mp h
    unfold Row.insert
    split
    · next heq => exact List.pairwise_cons.mpr ⟨fun b hb => heq ▸ hfirst b hb, hrest⟩
    · next hne =>
      split
      · next hlt =>
        refine List.pairwise_cons.mpr ⟨fun b hb => ?_, h⟩
        rcases List.mem_cons.mp hb with rfl | hb
        · exact hlt
        · exact String.lt_trans hlt (hfirst b hb)
      · next hge =>
        -- the name is above the first one, and so is what is put in behind it
        have hgt : a.1 < name := by
          rcases Std.lt_trichotomy name a.1 with hlt | heq | hgt
          · exact absurd hlt hge
          · exact absurd heq hne
          · exact hgt
        refine List.pairwise_cons.mpr ⟨fun b hb => ?_, ih hrest⟩
        rcases mem_insert hb with rfl | hb
        · exact hgt
        · exact hfirst b hb

theorem lookup_insert :
    (insert name v ms).lookup other = if other = name then some v else ms.lookup other := by
  induction ms with
  | nil =>
    unfold insert
    grind
  | cons a ms ih =>
    unfold insert
    grind

/-- The members of a list are put in one by one. -/
theorem foldl_insert (l : List (String × Value)) (h : Ordered ms) :
    Ordered (l.foldl (fun ms m => insert m.1 m.2.toRowJson ms) ms) ∧
      ∀ name, (l.foldl (fun ms m => insert m.1 m.2.toRowJson ms) ms).lookup name =
        ((l.reverse.lookup name).map Value.toRowJson).or (ms.lookup name) := by
  induction l generalizing ms with
  | nil => exact ⟨h, fun _ => rfl⟩
  | cons m l ih =>
    have hfirst : Ordered (insert m.1 m.2.toRowJson ms) := h.insert
    obtain ⟨hordered, hlookup⟩ := ih hfirst
    refine ⟨hordered, fun name => ?_⟩
    rw [List.foldl_cons, hlookup, lookup_insert, List.reverse_cons, List.lookup_append]
    grind

/-- **The members of a row are in the order of their names**, no two of which are the same. -/
theorem ordered_members (t : Table) (r : Record) (columns : Option (List Nat)) :
    Ordered (members t r columns) :=
  (foldl_insert _ .nil).left

/-- **What the members of a row hold**: under each name the last of its values, first the row id and
then the columns that are shown. -/
theorem lookup_members (t : Table) (r : Record) (columns : Option (List Nat)) (name : String) :
    (members t r columns).lookup name =
      ((rowId t r ++ (columnNames t columns).zip r.values).reverse.lookup name).map
        Value.toRowJson := by
  rw [members, (foldl_insert _ .nil).right, List.lookup_nil, Option.or_none]

end Tablespace.Row
