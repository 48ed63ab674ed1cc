import Tablespace.Proofs.Found
import Tablespace.Proofs.InRange
import Tablespace.Tree.Fill
import Tablespace.Tree.Range

/-! # Queries in range

No query goes out of range, whatever bytes the image holds: each comes to its end, or fails because
of its arguments, of damage or of a format that is not read here. A binary search stays between two
slots that are there, and every other access of a query is one of a page or of a record.

* `Reader.StaysInRange`: a reader none of whose queries goes out of range.
* `Reader.inRange_of`: the reader of a table that is defined by a text is opened in range, and stays
  in range. -/

namespace Tablespace

/-! ### Runs -/

namespace Run

theorem inRange_prepend {run : Run Error α} (h : InRange run.toExcept) (rows : List α) :
    InRange (run.prepend rows).toExcept := by
  obtain ⟨rows', failure⟩ := run
  cases failure with
  | none => exact .ok _
  | some e => exact .error (h.kind_ne e rfl)

theorem inRange_ofExcept {x : Except Error β} {f : β → Run Error α} (hx : InRange x)
    (hf : ∀ b, x = .ok b → InRange (f b).toExcept) : InRange (ofExcept x f).toExcept := by
  cases x with
  | error e => exact .error (hx.kind_ne e rfl)
  | ok b => exact hf b rfl

theorem inRange_concat {f : β → Run Error α} {l : List β} (h : ∀ b ∈ l, InRange (f b).toExcept) :
    InRange (concat f l).toExcept := by
  induction l with
  | nil => exact .ok _
  | cons b l ih =>
    rw [concat, toExcept_andThen]
    refine .bind (h b List.mem_cons_self) fun rows _ => ?_
    exact .bind (ih fun b hb => h b (List.mem_cons_of_mem _ hb)) fun rows' _ => .ok _

end Run

theorem Record.inRange_project (r : Record) (columns : List Nat) : InRange (r.project columns) := by
  unfold project
  refine .bind (.mapM fun i _ => ?_) fun values _ => .ok _
  unfold valueAt
  split
  · exact .ok _
  · exact .argument _

/-! ### Opening -/

namespace Table
variable (t : Table)

theorem inRange_validateKey (seen names : List String) : InRange (t.validateKey seen names) := by
  induction names generalizing seen with
  | nil => exact .ok _
  | cons n names ih =>
    unfold validateKey
    split
    · exact .argument _
    · refine .ite (fun _ => .argument _) fun _ => ?_
      exact .ite (fun _ => .unsupported _) fun _ => ih _

theorem inRange_validate : InRange t.validate := by
  unfold validate
  refine .ite (fun _ => .argument _) fun _ => ?_
  split
  · exact .argument _
  · exact inRange_validateKey ..

end Table

theorem Codec.inRange_ofTable (t : Table) (o : Options) : InRange (Codec.of t o) := by
  unfold Codec.of Table.layout
  exact .bind (.bind t.inRange_validate fun _ _ => .ok _) fun layout _ => .ok _

namespace Root
variable (i : Image)

theorem inRange_accept (p : Page) : InRange (accept p) := by
  unfold accept
  refine .ite (fun _ => ?_) fun _ => .damaged ..
  refine .bind (IndexPage.inRange_ofPage p) fun x _ => ?_
  exact .ite (fun _ => .ok _) fun _ => .damaged ..

theorem inRange_candidate (page : Nat) : InRange (candidate i page) :=
  .ite (fun _ => i.inRange_load page) fun _ => .corrupt ..

theorem inRange_search (page skips : Nat) : InRange (search i page skips) := by
  have found : ∀ page p, InRange (do return (page, ← accept p) : Except Error (Nat × IndexPage)) :=
    fun page p => .bind (inRange_accept p) fun x _ => .ok _
  induction skips generalizing page with
  | zero => exact .bind (inRange_candidate ..) fun p _ => found page p
  | succ skips ih =>
    unfold search
    refine .bind (inRange_candidate ..) fun p _ => ?_
    exact .ite (fun _ => ih _) fun _ => found page p

theorem inRange_find (o : Options) : InRange (find i o) := by
  unfold find
  split
  · exact inRange_search ..
  · exact inRange_search ..

end Root

namespace Reader

theorem inRange_open (i : Image) (t : Table) (o : Options) : InRange (Reader.of i t o) := by
  unfold Reader.of
  refine .bind (Codec.inRange_ofTable ..) fun codec _ => ?_
  exact .bind (Root.inRange_find ..) fun root _ => .ok _

/-! ### Pages of the index -/

section Search
variable {r : Reader} (hc : r.codec.Sound) {n : Node} {key : Key} {aim : Aim}

theorem inRange_source (r : Reader) (page : Nat) : InRange (r.source page) :=
  r.image.inRange_load page

theorem inRange_node (r : Reader) (page : Nat) : InRange (r.node page) := by
  unfold node
  refine .bind (r.image.inRange_load page) fun p _ => ?_
  refine .bind (p.inRange_expect _) fun _ _ => ?_
  refine .bind (IndexPage.inRange_ofPage p) fun x _ => ?_
  exact .ite (fun _ => .ok _) fun _ => .corrupt ..

theorem inRange_childNode (r : Reader) (parent page : Nat) : InRange (r.childNode parent page) := by
  unfold childNode
  refine .bind (r.inRange_node page) fun n _ => ?_
  exact .ite (fun _ => .ok _) fun _ => .corrupt ..

include hc

theorem inRange_chainFrom {p : Page} (leaf : Bool) (depth : Depth) (steps : Nat) (rec : Record) :
    InRange (Codec.chainFrom (r.codec.read r.source p leaf depth) p steps rec) := by
  induction steps generalizing rec with
  | zero => exact .damaged ..
  | succ steps ih =>
    unfold Codec.chainFrom
    split
    · exact .ok _
    · refine .bind (Codec.inRange_read r.inRange_source hc ..) fun next _ => ?_
      exact .ite (fun _ => .damaged ..) fun _ => .bind (ih next) fun rest _ => .ok _

theorem inRange_records (n : Node) : InRange (r.records n) := by
  unfold records Codec.chain
  refine .bind (.bind (Codec.inRange_read r.inRange_source hc ..) fun first _ => ?_) fun l _ => ?_
  · exact inRange_chainFrom hc ..
  · exact .ite (fun _ => .damaged ..) fun _ => .ok _

theorem inRange_probe (n : Node) (origin : Nat) : InRange (r.probe n origin) :=
  Codec.inRange_read r.inRange_source hc ..

/-! ### On a page -/

omit hc in
theorem inRange_slotAt {slots : Array Nat} {i : Nat} (h : i < slots.size) :
    InRange (slotAt slots i) := by
  unfold slotAt
  rw [Array.getElem?_eq_getElem h]
  exact .ok _

/-- The middle of two slots is below the upper one, which is there. -/
theorem inRange_bracket {lo hi : Nat} (h : hi ≤ n.index.slots.size) :
    InRange (r.bracket n key aim lo hi) := by
  induction hd : hi - lo using Nat.strongRecOn generalizing lo hi with
  | ind d ih =>
    rw [bracket]
    refine .ite (fun hlt => ?_) fun _ => .ok _
    refine .bind (inRange_slotAt (by omega)) fun origin _ => ?_
    refine .bind (inRange_probe hc ..) fun rec _ => ?_
    split
    · exact .ok _
    · exact ih _ (by omega) h rfl
    · exact ih _ (by omega) (by omega) rfl

omit hc in
theorem lt_of_bracket {lo hi i : Nat} (h : r.bracket n key aim lo hi = .ok (.inr i)) :
    i ≤ lo ∨ i < hi := by
  induction hd : hi - lo using Nat.strongRecOn generalizing lo hi with
  | ind d ih =>
    rw [bracket] at h
    split at h
    · next hlt =>
      simp only [bind_eq_ok] at h
      obtain ⟨origin, -, a, -, h⟩ := h
      split at h
      · cases h
      · have hi' := ih _ (by omega) h rfl
        omega
      · have hi' := ih _ (by omega) h rfl
        omega
    · cases h
      exact Or.inl (Nat.le_refl _)

theorem inRange_scan (n : Node) (steps : Nat) (prev : Record) :
    InRange (r.scan n key aim steps prev) := by
  induction steps generalizing prev with
  | zero => exact .damaged ..
  | succ steps ih =>
    rw [scan]
    split
    · exact .damaged ..
    · refine .bind (inRange_probe hc ..) fun rec _ => ?_
      split
      · exact .ok _
      · exact ih rec
      · exact .ok _

/-- **A key is located in range** on a page whose directory has a slot. -/
theorem inRange_locate (hn : 0 < n.index.slots.size) (key : Key) (aim : Aim) :
    InRange (r.locate n key aim) := by
  unfold locate
  rw [if_neg (by omega)]
  refine .bind (inRange_bracket hc (by omega)) fun place hplace => ?_
  cases place with
  | inl rec => exact .ok _
  | inr i =>
    have hi := lt_of_bracket hplace
    refine .bind (inRange_slotAt (by omega)) fun origin _ => ?_
    exact .bind (inRange_probe hc ..) fun first _ => inRange_scan hc ..

/-! ### From page to page -/

omit hc in
theorem inRange_child (place : Place) (page : Nat) : InRange (place.child page) := by
  unfold Place.child
  simp only
  split
  · exact .ok _
  · exact .corrupt ..

omit hc in
/-- A page of the index has a slot. -/
theorem size_slots_pos {page : Nat} (h : r.node page = .ok n) : 0 < n.index.slots.size := by
  obtain ⟨-, -, -, hslot⟩ := node_eq_ok h
  exact (Array.getElem?_eq_some_iff.mp hslot).1

theorem inRange_childFor (hn : 0 < n.index.slots.size) (target : Option Key) (aim : Aim) :
    InRange (r.childFor n target aim) := by
  unfold childFor
  split
  · unfold firstChild
    refine .bind (inRange_probe hc ..) fun infimum _ => ?_
    split
    · exact .damaged ..
    · exact .bind (inRange_probe hc ..) fun next _ => inRange_child ..
  · exact .bind (inRange_locate hc hn ..) fun place _ => inRange_child ..

theorem inRange_descendFrom (hn : 0 < n.index.slots.size) (target : Option Key) (aim : Aim)
    (level : Nat) : InRange (r.descendFrom target aim level n) := by
  induction level generalizing n with
  | zero => exact .ok _
  | succ level ih =>
    unfold descendFrom
    refine .bind (inRange_childFor hc hn ..) fun child _ => ?_
    refine .bind (r.inRange_childNode ..) fun below hbelow => ?_
    exact ih (size_slots_pos (node_of_childNode hbelow).1)

theorem inRange_descend (target : Option Key) (aim : Aim) : InRange (r.descend target aim) := by
  unfold descend
  refine .bind (r.inRange_node _) fun n hn => ?_
  exact inRange_descendFrom hc (size_slots_pos hn) ..

/-- **A lookup stays in range.** -/
theorem inRange_get (key : Key) : InRange (r.get key) := by
  unfold get
  refine .ite (fun _ => .argument _) fun _ => ?_
  refine .bind (inRange_descend hc ..) fun n hn => ?_
  obtain ⟨page, hpage, -⟩ := descend_eq_ok hn
  refine .bind (inRange_locate hc (size_slots_pos hpage) ..) fun place _ => ?_
  split
  · refine .ite (fun _ => ?_) fun _ => .ok _
    exact .map (Codec.inRange_read r.inRange_source hc ..) _
  · exact .ok _

/-! ### Scans -/

theorem inRange_subtree (level : Nat) (n : Node) : InRange (r.subtree level n).toExcept := by
  induction level generalizing n with
  | zero => exact Run.inRange_ofExcept (inRange_records hc n) fun l _ => .ok _
  | succ level ih =>
    refine Run.inRange_ofExcept (inRange_records hc n) fun l _ => Run.inRange_concat fun rec _ => ?_
    have hchild : InRange (childOf n rec) := by
      unfold childOf
      split
      · exact .ok _
      · exact .corrupt ..
    refine Run.inRange_ofExcept hchild fun child _ => ?_
    exact Run.inRange_ofExcept (r.inRange_childNode ..) fun below _ => ih below

/-- **A full scan stays in range.** -/
theorem inRange_all : InRange r.all :=
  Run.inRange_ofExcept (r.inRange_node _) fun _ _ => inRange_subtree hc ..

theorem inRange_select (test : Record → Bool) (columns : Option (List Nat)) :
    InRange (r.select test columns) := by
  unfold select projectAll
  refine .bind (inRange_all hc) fun l _ => ?_
  split
  · exact .ok _
  · exact .mapM fun rec _ => rec.inRange_project _

theorem inRange_fill (s : Scan) (page : Nat) : InRange (r.fill s page) := by
  unfold fill leafRecords
  refine .ite (fun _ => .corrupt ..) fun _ => ?_
  refine .bind (.bind (r.inRange_node page) fun n _ => ?_) fun leaf _ => .ok _
  exact .ite (fun _ => .bind (inRange_records hc n) fun l _ => .ok _) fun _ => .corrupt ..

/-- **A step of a range scan stays in range**, wherever the scan stands. -/
theorem inRange_next (s : Scan) : ∀ x ∈ (r.next s).1, InRange x := by
  fun_induction next r s with
  | case1 s rec rest hb =>
    intro x hx
    cases hx
    exact .ok _
  | case2 s hb hp =>
    intro x hx
    cases hx
  | case3 s hb page hp e he =>
    intro x hx
    cases hx
    exact .error ((inRange_fill hc s page).kind_ne e he)
  | case4 s hb page hp s' hs ih => exact ih

theorem inRange_drain (s : Scan) : InRange (r.drain s).toExcept := by
  fun_induction drain r s with
  | case1 s hp => exact .ok _
  | case2 s page hp e he =>
    refine Run.inRange_prepend ?_ _
    exact .error ((inRange_fill hc _ page).kind_ne e he)
  | case3 s page hp s' hs ih => exact Run.inRange_prepend ih _

theorem inRange_rangeOfLeaves (lower upper : Option Key) :
    InRange (r.rangeOfLeaves lower upper) := by
  unfold rangeOfLeaves
  simp only
  refine .bind (inRange_descend hc ..) fun start _ => ?_
  split
  · exact .bind (.map (inRange_descend hc ..) _) fun stop _ => .ok _
  · exact .bind (.ok _) fun stop _ => .ok _

/-- **The scan of a range is found in range.** -/
theorem inRange_range (lower upper : Option Key) : InRange (r.range lower upper) := by
  have bound : ∀ b, InRange (r.checkBound b) := by
    intro b
    unfold checkBound
    split
    · exact .ok _
    · exact .ite (fun _ => .argument _) fun _ => .ok _
  unfold range
  refine .bind (bound lower) fun _ _ => .bind (bound upper) fun _ _ => ?_
  split
  · split
    · exact .argument _
    · refine .ite (fun _ => ?_) fun _ => inRange_rangeOfLeaves hc ..
      exact .ite (fun _ => .bind (inRange_get hc _) fun o _ => .ok _) fun _ => .ok _
    · exact inRange_rangeOfLeaves hc ..
  · exact inRange_rangeOfLeaves hc ..

theorem inRange_between (lower upper : Option Key) : InRange (r.between lower upper) := by
  unfold between rangeRun
  split
  · exact inRange_all hc
  · exact Run.inRange_ofExcept (inRange_range hc ..) fun s _ => inRange_drain hc s

end Search

/-! ### Single pages -/

theorem inRange_decodePage (r : Reader) (page : Nat) : InRange (r.decodePage page) := by
  unfold decodePage
  exact .bind (r.image.inRange_load page) fun p _ => p.inRange_decode

theorem inRange_pageFill (r : Reader) (page : Nat) : InRange (r.pageFill page) := by
  unfold pageFill
  refine .bind (r.image.inRange_load page) fun p _ => ?_
  exact .bind (IndexPage.inRange_ofPage p) fun x _ => .ok _

theorem inRange_fillStats (r : Reader) : InRange r.fillStats := by
  have fill : ∀ page, InRange (r.fillOf page) := by
    intro page
    unfold fillOf
    refine .bind (r.image.inRange_loadHeader page) fun header _ => .ite (fun _ => ?_) fun _ => .ok _
    refine .bind (r.image.inRange_load page) fun p _ => ?_
    exact .bind (IndexPage.inRange_ofPage p) fun x _ => .ok _
  unfold fillStats
  exact .bind (.mapM fun page _ => fill page) fun fills _ => .ok _

/-! ### All queries -/

/-- **A reader none of whose queries goes out of range.** Its pages and records are decoded by the
guarded decoders too, which fail where a slice, an index or a shift is out of range. -/
structure StaysInRange (r : Reader) : Prop where
  get : ∀ key, InRange (r.get key)
  all : InRange r.all
  traverse : InRange r.traverse.toExcept
  select : ∀ test columns, InRange (r.select test columns)
  range : ∀ lower upper, InRange (r.range lower upper)
  next : ∀ s, ∀ x ∈ (r.next s).1, InRange x
  drain : ∀ s, InRange (r.drain s).toExcept
  between : ∀ lower upper, InRange (r.between lower upper)
  decodePage : ∀ page, InRange (r.decodePage page)
  pageFill : ∀ page, InRange (r.pageFill page)
  fillStats : InRange r.fillStats
  /-- Whatever the page and the origin. -/
  read : ∀ p leaf depth origin, InRange (r.codec.read r.source p leaf depth origin)
  guardedRead : ∀ p leaf depth origin,
    Guarded.read r.codec r.source p leaf depth origin = r.codec.read r.source p leaf depth origin
  guardedLoad : ∀ page, Guarded.load r.image page = r.image.load page

/-- **Nothing goes out of range**, whatever bytes the image holds: a table that is defined by a text
is opened in range, and all queries of its reader stay in range. -/
theorem inRange_of {text : String} {t : Table} (ht : Table.ofJson text = .ok t) (i : Image)
    (o : Options) :
    InRange (Reader.of i t o) ∧ ∀ r, Reader.of i t o = .ok r → r.StaysInRange := by
  refine ⟨inRange_open i t o, fun r hr => ?_⟩
  have hc : r.codec.Sound := by
    unfold Reader.of at hr
    obtain ⟨codec, hcodec, hr⟩ := bind_eq_ok.mp hr
    obtain ⟨root, -, hr⟩ := bind_eq_ok.mp hr
    cases hr
    exact Codec.sound_of_ofJson ht hcodec
  exact {
    get := inRange_get hc
    all := inRange_all hc
    traverse := inRange_all hc
    select := inRange_select hc
    range := inRange_range hc
    next := inRange_next hc
    drain := inRange_drain hc
    between := inRange_between hc
    decodePage := r.inRange_decodePage
    pageFill := r.inRange_pageFill
    fillStats := r.inRange_fillStats
    read := Codec.inRange_read r.inRange_source hc
    guardedRead := Guarded.read_eq hc r.source
    guardedLoad := Guarded.load_eq r.image }

/-- A text that defines a table. -/
def TwoLeaves.definition : String :=
  "\x7b\"name\":\"t\",\"columns\":[\x7b\"name\":\"id\",\"type\":\"int\"\x7d]," ++
    "\"primary_key\":[\"id\"]\x7d"

/-- The tree of two leaves is opened with a table that is defined by a text. -/
theorem inRange_of_twoLeaves :
    Table.ofJson TwoLeaves.definition = .ok TwoLeaves.reader.table ∧
      Reader.of TwoLeaves.image TwoLeaves.reader.table .default = .ok TwoLeaves.reader ∧
      TwoLeaves.reader.StaysInRange := by
  have ht : Table.ofJson TwoLeaves.definition = .ok TwoLeaves.reader.table := by decide +kernel
  have hfind : Root.find TwoLeaves.image .default = .ok (3, TwoLeaves.root.node.index) := by
    decide +kernel
  have hr : Reader.of TwoLeaves.image TwoLeaves.reader.table .default = .ok TwoLeaves.reader := by
    unfold Reader.of
    rw [hfind]
    rfl
  exact ⟨ht, hr, (inRange_of ht TwoLeaves.image .default).2 _ hr⟩

end Reader
end Tablespace
