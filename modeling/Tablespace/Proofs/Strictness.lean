import Tablespace.Proofs.Iteration
import Tablespace.Proofs.QueriesInRange

/-! # Stricter options

Two options make a reader check more: the checksum of each page that it loads, and the number of the
records of each page that it scans. A check that fails is a failure of the query, and no query goes
on after a failure. So what is answered under stricter options is answered alike without them.

* `UpheldBy`: a computation that answers what another one does, wherever that one answers.
* `Run.UpheldBy`: a run that has the rows of another one, and goes on where that one fails.
* `Options.Stricter`, `Reader.Stricter`: the same options, and readers, but for further checks.
* `Reader.Upholds`: a reader that answers what another one does, wherever that one answers.
* `Reader.exists_upholds_of_stricter`: opening and queries under stricter options. -/

namespace Tablespace

/-! ### Answers that are upheld -/

/-- **A computation whose answer another one upholds**, which may answer where it fails. -/
structure UpheldBy (x y : Except ε α) : Prop where
  eq_ok : ∀ a, x = .ok a → y = .ok a

namespace UpheldBy

theorem refl (x : Except ε α) : UpheldBy x x := ⟨fun _ h => h⟩

theorem error (e : ε) (y : Except ε α) : UpheldBy (.error e) y := ⟨nofun⟩

theorem bind {x y : Except ε α} {f g : α → Except ε β} (hx : UpheldBy x y)
    (hf : ∀ a, x = .ok a → UpheldBy (f a) (g a)) : UpheldBy (x >>= f) (y >>= g) := by
  constructor
  intro b hb
  obtain ⟨a, ha, hb⟩ := bind_eq_ok.mp hb
  exact bind_eq_ok.mpr ⟨a, hx.eq_ok a ha, (hf a ha).eq_ok b hb⟩

theorem map {x y : Except ε α} (hx : UpheldBy x y) (f : α → β) : UpheldBy (f <$> x) (f <$> y) := by
  constructor
  intro b hb
  obtain ⟨a, ha, hb⟩ := map_eq_ok.mp hb
  exact map_eq_ok.mpr ⟨a, hx.eq_ok a ha, hb⟩

theorem ite {P : Prop} [Decidable P] {x x' y y' : Except ε α} (hx : P → UpheldBy x x')
    (hy : ¬ P → UpheldBy y y') : UpheldBy (if P then x else y) (if P then x' else y') := by
  split
  · next h => exact hx h
  · next h => exact hy h

theorem mapM {f g : α → Except ε β} {l : List α} (h : ∀ a ∈ l, UpheldBy (f a) (g a)) :
    UpheldBy (l.mapM f) (l.mapM g) := by
  induction l with
  | nil => exact refl _
  | cons a l ih =>
    rw [List.mapM_cons, List.mapM_cons]
    refine bind (h a List.mem_cons_self) fun b _ => ?_
    exact bind (ih fun a ha => h a (List.mem_cons_of_mem _ ha)) fun bs _ => refl _

end UpheldBy

namespace Run

/-- **A run that another one upholds**: the other has its rows first, and goes on where it fails. -/
structure UpheldBy (x y : Run ε α) : Prop where
  rows : x.rows <+: y.rows
  eq_of_none : x.failure = none → y = x

namespace UpheldBy
variable {x y x' y' : Run ε α}

theorem refl (x : Run ε α) : x.UpheldBy x := ⟨List.prefix_rfl, fun _ => rfl⟩

theorem fail (e : ε) (y : Run ε α) : (Run.fail e).UpheldBy y := ⟨List.nil_prefix, nofun⟩

theorem prepend (h : x.UpheldBy y) (rows : List α) : (x.prepend rows).UpheldBy (y.prepend rows) :=
  ⟨(List.prefix_append_right_inj rows).mpr h.rows, fun hn => by rw [h.eq_of_none hn]⟩

theorem ofExcept {x y : Except ε β} {f g : β → Run ε α} (hx : Tablespace.UpheldBy x y)
    (hf : ∀ b, x = .ok b → (f b).UpheldBy (g b)) :
    (Run.ofExcept x f).UpheldBy (Run.ofExcept y g) := by
  cases x with
  | error e => exact fail e _
  | ok b =>
    rw [hx.eq_ok b rfl]
    exact hf b rfl

theorem andThen (h : x.UpheldBy y) (h' : x'.UpheldBy y') :
    (x.andThen x').UpheldBy (y.andThen y') := by
  cases hx : x.failure with
  | none =>
    rw [h.eq_of_none hx, Run.andThen, hx, Run.andThen, hx]
    exact h'.prepend _
  | some e =>
    rw [Run.andThen, hx]
    refine ⟨h.rows.trans ?_, fun hn => by rw [hx] at hn; cases hn⟩
    unfold Run.andThen
    split
    · exact List.prefix_append ..
    · exact List.prefix_rfl

theorem concat {f g : β → Run ε α} {l : List β} (h : ∀ b ∈ l, (f b).UpheldBy (g b)) :
    (Run.concat f l).UpheldBy (Run.concat g l) := by
  induction l with
  | nil => exact refl _
  | cons b l ih =>
    rw [Run.concat, Run.concat]
    exact (h b List.mem_cons_self).andThen (ih fun b hb => h b (List.mem_cons_of_mem _ hb))

theorem toExcept (h : x.UpheldBy y) : Tablespace.UpheldBy x.toExcept y.toExcept := by
  constructor
  intro l hl
  cases hx : x.failure with
  | none => rw [h.eq_of_none hx, hl]
  | some e =>
    rw [Run.toExcept, hx] at hl
    cases hl

end UpheldBy
end Run

/-! ### Further checks -/

/-- **Options with further checks**: those of checksums and record counts, and no other change. -/
structure Options.Stricter (b a : Options) : Prop where
  checksums : a.verifyChecksums → b.verifyChecksums
  count : a.strictRecordCount → b.strictRecordCount
  rest : b = { a with
    verifyChecksums := b.verifyChecksums
    strictRecordCount := b.strictRecordCount }

/-- **An image with further checks.** -/
structure Image.Stricter (b a : Image) : Prop where
  data : b.data = a.data
  checksums : a.verifyChecksums → b.verifyChecksums

/-- **A reader with further checks**, which knows the same of the index. -/
structure Reader.Stricter (b a : Reader) : Prop where
  image : b.image.Stricter a.image
  options : b.options.Stricter a.options
  codec : b.codec = a.codec
  root : b.root = a.root
  indexId : b.indexId = a.indexId

/-! ### Pages -/

namespace Image.Stricter
variable {b a : Image} (h : b.Stricter a)
include h

theorem pageCount_eq : b.pageCount = a.pageCount := by
  unfold pageCount
  rw [h.data]

theorem raw_eq (page : Nat) : b.raw page = a.raw page := by
  unfold raw
  rw [h.pageCount_eq, h.data]

theorem loadHeader_eq (page : Nat) : b.loadHeader page = a.loadHeader page := by
  unfold loadHeader
  rw [h.raw_eq]

/-- A page that passes the checks of its load passes fewer of them. -/
theorem upheld_load (page : Nat) : UpheldBy (b.load page) (a.load page) := by
  unfold load
  rw [h.raw_eq]
  refine .bind (.refl _) fun data _ => ?_
  by_cases ha : a.verifyChecksums = true
  · rw [if_pos ha, if_pos (h.checksums ha)]
    exact .refl _
  · rw [if_neg ha]
    constructor
    intro p hp
    split at hp
    · obtain ⟨_, -, hp⟩ := bind_eq_ok.mp hp
      exact hp
    · exact hp

end Image.Stricter

/-! ### Long values -/

namespace PageSource
variable {src src' : PageSource} (h : ∀ page, UpheldBy (src page) (src' page))
include h

theorem upheld_partOf (page offset : Nat) :
    UpheldBy (src.partOf page offset) (src'.partOf page offset) := by
  unfold partOf
  exact .bind (h page) fun p _ => .refl _

theorem upheld_externalFrom (total done : Nat) (visited : List Nat) (page offset : Nat) :
    UpheldBy (src.externalFrom total done visited page offset)
      (src'.externalFrom total done visited page offset) := by
  fun_induction externalFrom src total done visited page offset with
  | case1 done visited page offset hd =>
    rw [externalFrom, if_pos hd]
    exact .refl _
  | case2 => exact .error ..
  | case3 => exact .error ..
  | case4 done visited page offset hd hv part data hp shown next hn ih =>
    have hp' := (upheld_partOf h page offset).eq_ok _ hp
    rw [externalFrom.eq_def src', if_neg hd, if_neg hv]
    split
    · next e he => rw [he] at hp'; cases hp'
    · next part' data' he =>
      rw [he] at hp'
      cases hp'
      rw [hn]
      exact .bind ih fun rest _ => .refl _
  | case5 done visited page offset hd hv part data hp shown hn hend =>
    have hp' := (upheld_partOf h page offset).eq_ok _ hp
    rw [externalFrom.eq_def src', if_neg hd, if_neg hv]
    split
    · next e he => rw [he] at hp'; cases hp'
    · next part' data' he =>
      rw [he] at hp'
      cases hp'
      simp only [hn]
      rw [if_pos hend]
      exact .refl _
  | case6 => exact .error ..

end PageSource

/-! ### Records -/

namespace Codec
variable {src src' : PageSource} (h : ∀ page, UpheldBy (src page) (src' page)) (c : Codec)
include h

theorem upheld_readBytes (p : Page) (f : Field) (heads : Heads) :
    UpheldBy (readBytes src p f heads) (readBytes src' p f heads) := by
  unfold readBytes
  refine .bind (.refl _) fun length _ => .bind (.refl _) fun stored _ => ?_
  refine .ite (fun _ => .bind ?_ fun bytes _ => .refl _) fun _ => .refl _
  unfold resolve
  refine .ite (fun _ => .refl _) fun _ => .bind (.refl _) fun ptr _ => ?_
  exact .bind (PageSource.upheld_externalFrom h ..) fun tail _ => .refl _

theorem upheld_readField (p : Page) (header : Nat) (f : Field) (heads : Heads) :
    UpheldBy (c.readField src p header f heads) (c.readField src' p header f heads) := by
  have rest : ∀ null : Bool, UpheldBy
      (if null then .ok (Value.null, heads)
        else readBytes src p f heads >>= fun x => .ok (c.decodeField f x.1, x.2))
      (if null then .ok (Value.null, heads)
        else readBytes src' p f heads >>= fun x => .ok (c.decodeField f x.1, x.2)) := by
    intro null
    exact .ite (fun _ => .refl _) fun _ => .bind (upheld_readBytes h ..) fun bytes _ => .refl _
  unfold readField
  simp only
  split
  · exact .bind (.refl _) fun null _ => rest null
  · exact .bind (.refl _) fun null _ => rest null

theorem upheld_readFields (p : Page) (header : Nat) (fs : List Field) (heads : Heads) :
    UpheldBy (c.readFields src p header fs heads) (c.readFields src' p header fs heads) := by
  induction fs generalizing heads with
  | nil => exact .refl _
  | cons f fs ih =>
    rw [readFields, readFields]
    refine .bind (upheld_readField h ..) fun value _ => ?_
    exact .bind (ih _) fun values _ => .refl _

theorem upheld_readUser (p : Page) (leaf : Bool) (depth : Depth) (r : Record) :
    UpheldBy (c.readUser src p leaf depth r) (c.readUser src' p leaf depth r) := by
  unfold readUser
  refine .ite (fun _ => .refl _) fun _ => .bind (.refl _) fun body _ => ?_
  refine .bind (upheld_readFields h ..) fun key _ => ?_
  refine .ite (fun _ => .refl _) fun _ => .ite (fun _ => .refl _) fun _ => ?_
  refine .bind (.refl _) fun transaction _ => .bind (.refl _) fun roll _ => ?_
  exact .bind (upheld_readFields h ..) fun values _ => .refl _

/-- **A record is decoded alike** from pages that are loaded with fewer checks. -/
theorem upheld_read (p : Page) (leaf : Bool) (depth : Depth) (origin : Nat) :
    UpheldBy (c.read src p leaf depth origin) (c.read src' p leaf depth origin) := by
  unfold read
  refine .bind (.refl _) fun header _ => ?_
  simp only
  split
  · exact .refl _
  · exact .refl _
  · exact upheld_readUser h ..
  · exact upheld_readUser h ..
  · exact .refl _

omit h in
theorem upheld_chainFrom {read read' : Nat → Except Error Record}
    (hread : ∀ origin, UpheldBy (read origin) (read' origin)) (p : Page) (steps : Nat)
    (r : Record) : UpheldBy (chainFrom read p steps r) (chainFrom read' p steps r) := by
  induction steps generalizing r with
  | zero => exact .refl _
  | succ steps ih =>
    rw [chainFrom, chainFrom]
    split
    · exact .refl _
    · refine .bind (hread _) fun next _ => .ite (fun _ => .refl _) fun _ => ?_
      exact .bind (ih next) fun rest _ => .refl _

theorem upheld_chain (p : Page) (x : IndexPage) (depth : Depth) :
    UpheldBy (c.chain src p x depth) (c.chain src' p x depth) := by
  unfold chain
  refine .bind (upheld_read h ..) fun first _ => ?_
  exact upheld_chainFrom (fun _ => upheld_read h ..) ..

end Codec

/-! ### Queries -/

namespace Reader.Stricter
variable {b a : Reader} (h : b.Stricter a) {n : Node} {key : Key} {aim : Aim}
include h

theorem keyLength_eq : b.keyLength = a.keyLength := by
  unfold keyLength
  rw [h.codec]

theorem isVisible_eq : b.isVisible = a.isVisible := by
  have hdeleted : b.options.includeDeleted = a.options.includeDeleted := by rw [h.options.rest]
  unfold isVisible
  rw [hdeleted]

theorem pageCount_eq : b.pageCount = a.pageCount := h.image.pageCount_eq

theorem upheld_read (p : Page) (leaf : Bool) (depth : Depth) (origin : Nat) :
    UpheldBy (b.codec.read b.source p leaf depth origin)
      (a.codec.read a.source p leaf depth origin) := by
  rw [h.codec]
  exact Codec.upheld_read h.image.upheld_load ..

theorem upheld_node (page : Nat) : UpheldBy (b.node page) (a.node page) := by
  unfold node
  rw [h.indexId]
  exact .bind (h.image.upheld_load page) fun p _ => .refl _

theorem upheld_childNode (parent page : Nat) :
    UpheldBy (b.childNode parent page) (a.childNode parent page) := by
  unfold childNode
  exact .bind (h.upheld_node page) fun n _ => .refl _

/-- The records of a page are those of a reader that does not count them. -/
theorem upheld_records (n : Node) : UpheldBy (b.records n) (a.records n) := by
  unfold records
  rw [h.codec]
  refine .bind (Codec.upheld_chain h.image.upheld_load ..) fun l _ => ?_
  by_cases hl : l.length ≠ n.index.header.records ∧ b.options.strictRecordCount
  · rw [if_pos hl]
    exact .error ..
  · rw [if_neg hl, if_neg fun ha => hl ⟨ha.1, h.options.count ha.2⟩]
    exact .refl _

theorem upheld_probe (n : Node) (origin : Nat) : UpheldBy (b.probe n origin) (a.probe n origin) :=
  h.upheld_read ..

/-! #### Searches -/

theorem upheld_bracket (lo hi : Nat) :
    UpheldBy (b.bracket n key aim lo hi) (a.bracket n key aim lo hi) := by
  induction hd : hi - lo using Nat.strongRecOn generalizing lo hi with
  | ind d ih =>
    rw [bracket, bracket]
    refine .ite (fun hlt => ?_) fun _ => .refl _
    refine .bind (.refl _) fun origin _ => .bind (h.upheld_probe ..) fun rec _ => ?_
    split
    · exact .refl _
    · exact ih _ (by omega) _ _ rfl
    · exact ih _ (by omega) _ _ rfl

theorem upheld_scan (steps : Nat) (prev : Record) :
    UpheldBy (b.scan n key aim steps prev) (a.scan n key aim steps prev) := by
  induction steps generalizing prev with
  | zero => exact .refl _
  | succ steps ih =>
    rw [scan, scan]
    split
    · exact .refl _
    · refine .bind (h.upheld_probe ..) fun rec _ => ?_
      split
      · exact .refl _
      · exact ih rec
      · exact .refl _

theorem upheld_locate (n : Node) (key : Key) (aim : Aim) :
    UpheldBy (b.locate n key aim) (a.locate n key aim) := by
  unfold locate
  refine .ite (fun _ => .refl _) fun _ => .bind (h.upheld_bracket ..) fun place _ => ?_
  split
  · exact .refl _
  · refine .bind (.refl _) fun origin _ => .bind (h.upheld_probe ..) fun first _ => ?_
    exact h.upheld_scan ..

theorem upheld_childFor (n : Node) (target : Option Key) (aim : Aim) :
    UpheldBy (b.childFor n target aim) (a.childFor n target aim) := by
  unfold childFor
  split
  · unfold firstChild
    refine .bind (h.upheld_probe ..) fun infimum _ => ?_
    split
    · exact .refl _
    · exact .bind (h.upheld_probe ..) fun next _ => .refl _
  · exact .bind (h.upheld_locate ..) fun place _ => .refl _

theorem upheld_descendFrom (target : Option Key) (aim : Aim) (level : Nat) (n : Node) :
    UpheldBy (b.descendFrom target aim level n) (a.descendFrom target aim level n) := by
  induction level generalizing n with
  | zero => exact .refl _
  | succ level ih =>
    rw [descendFrom, descendFrom]
    refine .bind (h.upheld_childFor ..) fun child _ => ?_
    exact .bind (h.upheld_childNode ..) fun below _ => ih below

theorem upheld_descend (target : Option Key) (aim : Aim) :
    UpheldBy (b.descend target aim) (a.descend target aim) := by
  unfold descend
  rw [h.root]
  exact .bind (h.upheld_node _) fun n _ => h.upheld_descendFrom ..

theorem upheld_get (key : Key) : UpheldBy (b.get key) (a.get key) := by
  unfold get
  rw [h.keyLength_eq, h.isVisible_eq]
  refine .ite (fun _ => .refl _) fun _ => .bind (h.upheld_descend ..) fun n _ => ?_
  refine .bind (h.upheld_locate ..) fun place _ => ?_
  split
  · exact .ite (fun _ => .map (h.upheld_read ..) _) fun _ => .refl _
  · exact .refl _

/-! #### Scans -/

theorem upheld_subtree (level : Nat) (n : Node) :
    (b.subtree level n).UpheldBy (a.subtree level n) := by
  induction level generalizing n with
  | zero =>
    rw [subtree, subtree, h.isVisible_eq]
    exact .ofExcept (h.upheld_records n) fun l _ => .refl _
  | succ level ih =>
    rw [subtree, subtree]
    refine .ofExcept (h.upheld_records n) fun l _ => .concat fun rec _ => ?_
    refine .ofExcept (.refl _) fun child _ => ?_
    exact .ofExcept (h.upheld_childNode ..) fun below _ => ih below

theorem upheld_all : UpheldBy b.all a.all := by
  unfold all traverse
  rw [h.root]
  exact Run.UpheldBy.toExcept (.ofExcept (h.upheld_node _) fun n _ => h.upheld_subtree ..)

theorem upheld_select (test : Record → Bool) (columns : Option (List Nat)) :
    UpheldBy (b.select test columns) (a.select test columns) := by
  unfold select
  exact .bind h.upheld_all fun l _ => .refl _

theorem upheld_fill (s : Scan) (page : Nat) : UpheldBy (b.fill s page) (a.fill s page) := by
  unfold fill leafRecords
  rw [h.pageCount_eq, h.isVisible_eq]
  refine .ite (fun _ => .refl _) fun _ => .bind (.bind (h.upheld_node page) fun n _ => ?_) ?_
  · exact .ite (fun _ => .bind (h.upheld_records n) fun l _ => .refl _) fun _ => .refl _
  · exact fun leaf _ => .refl _

/-- What is left of a scan is upheld, a leaf at a time. -/
theorem upheld_drain (s : Scan) : (b.drain s).UpheldBy (a.drain s) := by
  -- on the leaves that may still be read
  induction hd : b.pageCount - s.visited using Nat.strongRecOn generalizing s with
  | ind d ih =>
    rw [drain_eq, drain_eq]
    refine .prepend ?_ _
    unfold beyond
    split
    · exact .refl _
    · refine .ofExcept (h.upheld_fill ..) fun s' hs => ih _ ?_ s' rfl
      obtain ⟨hlt, hvisited⟩ := visited_of_fill hs
      simp only at hlt hvisited
      omega

theorem upheld_rangeOfLeaves (lower upper : Option Key) :
    UpheldBy (b.rangeOfLeaves lower upper) (a.rangeOfLeaves lower upper) := by
  unfold rangeOfLeaves
  rw [h.keyLength_eq]
  refine .bind (h.upheld_descend ..) fun start _ => ?_
  simp only
  split
  · exact .bind (.map (h.upheld_descend ..) _) fun stop _ => .refl _
  · exact .refl _

theorem upheld_range (lower upper : Option Key) :
    UpheldBy (b.range lower upper) (a.range lower upper) := by
  have bound : ∀ bound, b.checkBound bound = a.checkBound bound := by
    intro bound
    unfold checkBound
    rw [h.keyLength_eq]
  unfold range
  rw [bound, bound, h.keyLength_eq]
  refine .bind (.refl _) fun _ _ => .bind (.refl _) fun _ _ => ?_
  split
  · split
    · exact .refl _
    · refine .ite (fun _ => ?_) fun _ => h.upheld_rangeOfLeaves ..
      exact .ite (fun _ => .bind (h.upheld_get _) fun found _ => .refl _) fun _ => .refl _
    · exact h.upheld_rangeOfLeaves ..
  · exact h.upheld_rangeOfLeaves ..

theorem upheld_between (lower upper : Option Key) :
    UpheldBy (b.between lower upper) (a.between lower upper) := by
  unfold between rangeRun
  split
  · exact h.upheld_all
  · exact Run.UpheldBy.toExcept (.ofExcept (h.upheld_range ..) fun s _ => h.upheld_drain s)

/-! #### Single pages -/

theorem upheld_decodePage (page : Nat) : UpheldBy (b.decodePage page) (a.decodePage page) := by
  unfold decodePage
  exact .bind (h.image.upheld_load page) fun p _ => .refl _

theorem upheld_pageFill (page : Nat) : UpheldBy (b.pageFill page) (a.pageFill page) := by
  unfold pageFill
  exact .bind (h.image.upheld_load page) fun p _ => .refl _

/-- A header is read unchecked, and so alike. -/
theorem upheld_fillOf (page : Nat) : UpheldBy (b.fillOf page) (a.fillOf page) := by
  unfold fillOf
  rw [h.image.loadHeader_eq, h.indexId]
  refine .bind (.refl _) fun header _ => .ite (fun _ => ?_) fun _ => .refl _
  exact .bind (h.image.upheld_load page) fun p _ => .refl _

theorem upheld_fillStats : UpheldBy b.fillStats a.fillStats := by
  unfold fillStats
  rw [h.pageCount_eq]
  exact .bind (.mapM fun page _ => h.upheld_fillOf page) fun fills _ => .refl _

end Reader.Stricter

/-! ### Opening -/

namespace Root
variable {b a : Image} (h : b.Stricter a)
include h

theorem upheld_candidate (page : Nat) : UpheldBy (candidate b page) (candidate a page) := by
  unfold candidate
  rw [h.pageCount_eq]
  exact .ite (fun _ => h.upheld_load page) fun _ => .refl _

theorem upheld_search (page skips : Nat) :
    UpheldBy (search b page skips) (search a page skips) := by
  induction skips generalizing page with
  | zero => exact .bind (upheld_candidate h page) fun p _ => .refl _
  | succ skips ih =>
    rw [search, search]
    refine .bind (upheld_candidate h page) fun p _ => ?_
    exact .ite (fun _ => ih _) fun _ => .refl _

theorem upheld_find {o o' : Options} (ho : o.Stricter o') : UpheldBy (find b o) (find a o') := by
  have hpage : o.rootPage = o'.rootPage := by rw [ho.rest]
  have hlimit : o.rootSearchLimit = o'.rootSearchLimit := by rw [ho.rest]
  unfold find
  rw [hpage, hlimit]
  split
  · exact upheld_search h ..
  · exact upheld_search h ..

end Root

namespace Reader

/-- **The reader of a table** that the bytes of a file hold. -/
def ofBuffer (o : Options) (data : Buffer) (t : Table) : Except Error Reader := do
  let i ← Image.ofBuffer o data
  Reader.of i t o

/-- A table that is opened under further checks is opened without them. -/
theorem exists_stricter_of_ofBuffer {b a : Options} (h : b.Stricter a) {data : Buffer} {t : Table}
    {rb : Reader} (hb : ofBuffer b data t = .ok rb) :
    ∃ ra, ofBuffer a data t = .ok ra ∧ rb.Stricter ra := by
  have hsize : b.validateFileSize = a.validateFileSize := by rw [h.rest]
  have hoffset : b.timestampOffset = a.timestampOffset := by rw [h.rest]
  have hcodec : Codec.of t b = Codec.of t a := by
    unfold Codec.of
    rw [hoffset]
  unfold ofBuffer Reader.of at hb
  obtain ⟨i, hi, hb⟩ := bind_eq_ok.mp hb
  obtain ⟨codec, hc, hb⟩ := bind_eq_ok.mp hb
  obtain ⟨⟨root, x⟩, hroot, hb⟩ := bind_eq_ok.mp hb
  cases hb
  unfold Image.ofBuffer at hi
  split at hi
  · cases hi
  · next hwhole =>
    cases hi
    have himage : Image.Stricter { data, verifyChecksums := b.verifyChecksums }
        { data, verifyChecksums := a.verifyChecksums } := ⟨rfl, h.checksums⟩
    refine ⟨{ image := _, codec, options := a, root, indexId := x.header.indexId }, ?_, himage, h,
      rfl, rfl, rfl⟩
    unfold ofBuffer Image.ofBuffer Reader.of
    rw [← hsize, if_neg hwhole, ← hcodec]
    refine bind_eq_ok.mpr ⟨_, rfl, bind_eq_ok.mpr ⟨codec, hc, ?_⟩⟩
    exact bind_eq_ok.mpr ⟨_, (Root.upheld_find himage h).eq_ok _ hroot, rfl⟩

/-! ### All queries -/

/-- **A reader that answers what another one does**, wherever that one answers. The rows of a range
come one by one, so that it has those that the other one gives before a failure. -/
structure Upholds (a b : Reader) : Prop where
  root : a.root = b.root
  indexId : a.indexId = b.indexId
  get : ∀ key, UpheldBy (b.get key) (a.get key)
  all : UpheldBy b.all a.all
  select : ∀ test columns, UpheldBy (b.select test columns) (a.select test columns)
  decodePage : ∀ page, UpheldBy (b.decodePage page) (a.decodePage page)
  pageFill : ∀ page, UpheldBy (b.pageFill page) (a.pageFill page)
  fillStats : UpheldBy b.fillStats a.fillStats
  between : ∀ lower upper, UpheldBy (b.between lower upper) (a.between lower upper)
  range : ∀ lower upper s, b.range lower upper = .ok s → a.range lower upper = .ok s ∧
    ∃ rows more failure failure',
      b.Answers s (List.map .ok rows ++ (Option.map .error failure).toList) ∧
      a.Answers s (List.map .ok (rows ++ more) ++ (Option.map .error failure').toList) ∧
      (failure = none → more = [] ∧ failure' = none)

theorem Stricter.upholds {b a : Reader} (h : b.Stricter a) : a.Upholds b where
  root := h.root.symm
  indexId := h.indexId.symm
  get := h.upheld_get
  all := h.upheld_all
  select := h.upheld_select
  decodePage := h.upheld_decodePage
  pageFill := h.upheld_pageFill
  fillStats := h.upheld_fillStats
  between := h.upheld_between
  range := by
    intro lower upper s hs
    obtain ⟨more, hmore⟩ := (h.upheld_drain s).rows
    refine ⟨(h.upheld_range lower upper).eq_ok s hs, (b.drain s).rows, more, (b.drain s).failure,
      (a.drain s).failure, answers_drain b s, ?_, fun hnone => ?_⟩
    · rw [hmore]
      exact answers_drain a s
    · rw [(h.upheld_drain s).eq_of_none hnone] at hmore ⊢
      exact ⟨by simpa using hmore, hnone⟩

/-- **Further checks only turn answers into failures**: a table that is opened under them is opened
without them, at the same root, and then each answer under them is an answer without them. -/
theorem exists_upholds_of_stricter {b a : Options} (h : b.Stricter a) {data : Buffer} {t : Table}
    {rb : Reader} (hb : ofBuffer b data t = .ok rb) :
    ∃ ra, ofBuffer a data t = .ok ra ∧ ra.Upholds rb := by
  obtain ⟨ra, hra, hstricter⟩ := exists_stricter_of_ofBuffer h hb
  exact ⟨ra, hra, hstricter.upholds⟩

end Reader

namespace TwoLeaves

/-- The bytes of the tree, with a checksum on each page that stands for an unchecked page. -/
def marked : Buffer :=
  { image.data with
    byte := fun i => if i % pageSize < 4 then [0xDE, 0xAD, 0xBE, 0xEF].getD (i % pageSize) 0
      else image.data.byte i }

/-- The options with both further checks. -/
def strict : Options :=
  { Options.default with verifyChecksums := true, strictRecordCount := true }

end TwoLeaves

/-- The rows of the tree under both further checks are its rows without them. -/
theorem Reader.exists_upholds_of_stricter_twoLeaves : ∃ rb ra l,
    ofBuffer TwoLeaves.strict TwoLeaves.marked TwoLeaves.reader.table = .ok rb ∧
    ofBuffer .default TwoLeaves.marked TwoLeaves.reader.table = .ok ra ∧
    rb.all = .ok l ∧ ra.all = .ok l := by
  have hall : ((ofBuffer TwoLeaves.strict TwoLeaves.marked TwoLeaves.reader.table).bind
      Reader.all).isOk = true := by
    decide +kernel
  cases hb : ofBuffer TwoLeaves.strict TwoLeaves.marked TwoLeaves.reader.table with
  | error e =>
    rw [hb] at hall
    cases hall
  | ok rb =>
    rw [hb, Except.bind] at hall
    cases hl : rb.all with
    | error e =>
      rw [hl] at hall
      cases hall
    | ok l =>
      obtain ⟨ra, hra, hupholds⟩ := exists_upholds_of_stricter
        (a := .default) ⟨by decide, by decide, rfl⟩ hb
      exact ⟨rb, ra, l, rfl, hra, hl, hupholds.all.eq_ok l hl⟩

end Tablespace
