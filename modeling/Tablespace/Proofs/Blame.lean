import Tablespace.Proofs.Deleted
import Tablespace.Proofs.Failures
import Tablespace.Proofs.Range

/-! # Whom queries blame

Arguments are checked before the first page is read: a key or a bound of a wrong length and bounds
in the wrong order fail whatever the image holds, by an error that says which. Once they have passed
their checks, what a query fails by comes from the image. Almost all of it is told as damage, but a
page number that leads beyond the image, of a child, of a sibling or of an overflow page, is told as
if it were a bad argument of the caller.

* `Reader.Bounds`: bounds that a range may have.
* `Reader.BlamesFile`, `Reader.BlamesCaller`: what queries fail by with good arguments, and with bad
  ones. `Reader.blames`: every reader does.
* `Reader.all_blames_caller`: a damaged image that makes a full scan fail by a bad argument. -/

namespace Tablespace.Reader

/-- A bound that gives some of the key fields, from the first on. -/
def IsBound (r : Reader) (k : Key) : Prop := k ≠ [] ∧ k.length ≤ r.keyLength

/-- **Bounds that a range may have**: each gives some of the key fields, and the lower is not above
the upper. -/
structure Bounds (r : Reader) (lower upper : Option Key) : Prop where
  isLower : ∀ k ∈ lower, r.IsBound k
  isUpper : ∀ k ∈ upper, r.IsBound k
  ordered : ∀ lo ∈ lower, ∀ hi ∈ upper, compareKeys lo hi ≠ .gt

/-! ### Good arguments -/

section Queries
variable {r : Reader} {n : Node} {key : Key} {aim : Aim}

/-- A computation that fails only by what the file of a reader gives. -/
abbrev Blameless (r : Reader) (x : Except Error α) : Prop :=
  FailsOnly (Error.OfFile r.pageCount) x

theorem blameless_source (r : Reader) (page : Nat) : r.Blameless (r.source page) :=
  r.image.failsOnly_load page

theorem blameless_node (r : Reader) (page : Nat) : r.Blameless (r.node page) := by
  unfold node
  refine .bind (r.blameless_source page) fun p _ => ?_
  refine .bind (p.failsOnly_expect _) fun _ _ => ?_
  refine .bind (IndexPage.failsOnly_ofPage p) fun x _ => ?_
  exact .ite (fun _ => .ok _) fun _ => .corrupt ..

theorem blameless_childNode (r : Reader) (parent page : Nat) :
    r.Blameless (r.childNode parent page) :=
  .bind (r.blameless_node page) fun _ _ => .ite (fun _ => .ok _) fun _ => .corrupt ..

theorem blameless_read (r : Reader) (p : Page) (leaf : Bool) (depth : Depth) (origin : Nat) :
    r.Blameless (r.codec.read r.source p leaf depth origin) :=
  Codec.failsOnly_read r.blameless_source ..

theorem blameless_probe (r : Reader) (n : Node) (origin : Nat) : r.Blameless (r.probe n origin) :=
  r.blameless_read ..

theorem blameless_chainFrom {p : Page} (leaf : Bool) (depth : Depth) (steps : Nat) (rec : Record) :
    r.Blameless (Codec.chainFrom (r.codec.read r.source p leaf depth) p steps rec) := by
  induction steps generalizing rec with
  | zero => exact .damaged ..
  | succ steps ih =>
    unfold Codec.chainFrom
    split
    · exact .ok _
    · refine .bind (r.blameless_read ..) fun next _ => ?_
      exact .ite (fun _ => .damaged ..) fun _ => .bind (ih next) fun _ _ => .ok _

theorem blameless_records (r : Reader) (n : Node) : r.Blameless (r.records n) := by
  unfold records Codec.chain
  refine .bind (.bind (r.blameless_read ..) fun first _ => ?_) fun l _ => ?_
  · exact blameless_chainFrom ..
  · exact .ite (fun _ => .damaged ..) fun _ => .ok _

theorem blameless_slotAt (slots : Array Nat) (i : Nat) : r.Blameless (slotAt slots i) := by
  unfold slotAt
  split
  · exact .ok _
  · exact .stray _

theorem blameless_bracket (lo hi : Nat) : r.Blameless (r.bracket n key aim lo hi) := by
  induction hd : hi - lo using Nat.strongRecOn generalizing lo hi with
  | ind d ih =>
    rw [bracket]
    refine .ite (fun hlt => ?_) fun _ => .ok _
    refine .bind (blameless_slotAt ..) fun origin _ => ?_
    refine .bind (r.blameless_probe ..) fun rec _ => ?_
    split
    · exact .ok _
    · exact ih _ (by omega) _ _ rfl
    · exact ih _ (by omega) _ _ rfl

theorem blameless_scan (n : Node) (steps : Nat) (prev : Record) :
    r.Blameless (r.scan n key aim steps prev) := by
  induction steps generalizing prev with
  | zero => exact .damaged ..
  | succ steps ih =>
    rw [scan]
    split
    · exact .damaged ..
    · refine .bind (r.blameless_probe ..) fun rec _ => ?_
      split
      · exact .ok _
      · exact ih rec
      · exact .ok _

theorem blameless_locate (n : Node) (key : Key) (aim : Aim) :
    r.Blameless (r.locate n key aim) := by
  unfold locate
  refine .ite (fun _ => .stray _) fun _ => .bind (blameless_bracket ..) fun place _ => ?_
  cases place with
  | inl rec => exact .ok _
  | inr i =>
    refine .bind (blameless_slotAt ..) fun origin _ => ?_
    exact .bind (r.blameless_probe ..) fun first _ => blameless_scan ..

theorem blameless_child (place : Place) (page : Nat) : r.Blameless (place.child page) := by
  unfold Place.child
  simp only
  split
  · exact .ok _
  · exact .corrupt ..

theorem blameless_childFor (n : Node) (target : Option Key) (aim : Aim) :
    r.Blameless (r.childFor n target aim) := by
  unfold childFor
  split
  · unfold firstChild
    refine .bind (r.blameless_probe ..) fun infimum _ => ?_
    split
    · exact .damaged ..
    · exact .bind (r.blameless_probe ..) fun next _ => blameless_child ..
  · exact .bind (blameless_locate ..) fun place _ => blameless_child ..

theorem blameless_descendFrom (n : Node) (target : Option Key) (aim : Aim) (level : Nat) :
    r.Blameless (r.descendFrom target aim level n) := by
  induction level generalizing n with
  | zero => exact .ok _
  | succ level ih =>
    unfold descendFrom
    refine .bind (blameless_childFor ..) fun child _ => ?_
    exact .bind (r.blameless_childNode ..) fun below _ => ih below

theorem blameless_descend (r : Reader) (target : Option Key) (aim : Aim) :
    r.Blameless (r.descend target aim) :=
  .bind (r.blameless_node _) fun _ _ => blameless_descendFrom ..

theorem blameless_get (h : key.length = r.keyLength) : r.Blameless (r.get key) := by
  unfold get
  rw [if_neg (not_not.mpr h)]
  refine .bind (r.blameless_descend ..) fun n _ => ?_
  refine .bind (blameless_locate ..) fun place _ => ?_
  split
  · exact .ite (fun _ => .map (r.blameless_read ..) _) fun _ => .ok _
  · exact .ok _

theorem blameless_subtree (level : Nat) (n : Node) :
    r.Blameless (r.subtree level n).toExcept := by
  induction level generalizing n with
  | zero => exact Run.failsOnly_ofExcept (r.blameless_records n) fun l _ => .ok _
  | succ level ih =>
    refine Run.failsOnly_ofExcept (r.blameless_records n) fun l _ =>
      Run.failsOnly_concat fun rec _ => ?_
    have hchild : r.Blameless (childOf n rec) := by
      unfold childOf
      split
      · exact .ok _
      · exact .corrupt ..
    refine Run.failsOnly_ofExcept hchild fun child _ => ?_
    exact Run.failsOnly_ofExcept (r.blameless_childNode ..) fun below _ => ih below

theorem blameless_all (r : Reader) : r.Blameless r.all :=
  Run.failsOnly_ofExcept (r.blameless_node _) fun _ _ => blameless_subtree ..

theorem blameless_fill (s : Scan) (page : Nat) : r.Blameless (r.fill s page) := by
  unfold fill leafRecords
  refine .ite (fun _ => .corrupt ..) fun _ => ?_
  refine .bind (.bind (r.blameless_node page) fun n _ => ?_) fun leaf _ => .ok _
  exact .ite (fun _ => .bind (r.blameless_records n) fun _ _ => .ok _) fun _ => .corrupt ..

theorem blameless_next (s : Scan) : ∀ x ∈ (r.next s).1, r.Blameless x := by
  fun_induction next r s with
  | case1 s rec rest hb =>
    rintro x ⟨⟩
    exact .ok _
  | case2 s hb hp => rintro x ⟨⟩
  | case3 s hb page hp e he =>
    rintro x ⟨⟩
    exact .error ((blameless_fill s page).holds e he)
  | case4 s hb page hp s' hs ih => exact ih

theorem blameless_drain (s : Scan) : r.Blameless (r.drain s).toExcept := by
  fun_induction drain r s with
  | case1 s hp => exact .ok _
  | case2 s page hp e he =>
    refine Run.failsOnly_prepend ?_ _
    exact .error ((blameless_fill _ page).holds e he)
  | case3 s page hp s' hs ih => exact Run.failsOnly_prepend ih _

theorem blameless_rangeOfLeaves (lower upper : Option Key) :
    r.Blameless (r.rangeOfLeaves lower upper) := by
  unfold rangeOfLeaves
  simp only
  refine .bind (r.blameless_descend ..) fun start _ => ?_
  split
  · exact .bind (.map (r.blameless_descend ..) _) fun stop _ => .ok _
  · exact .bind (.ok _) fun stop _ => .ok _

theorem blameless_range {lower upper : Option Key} (h : r.Bounds lower upper) :
    r.Blameless (r.range lower upper) := by
  unfold range
  rw [checkBound_eq_ok h.isLower, checkBound_eq_ok h.isUpper]
  refine .bind (.ok _) fun _ _ => .bind (.ok _) fun _ _ => ?_
  split
  · next lo hi =>
    split
    · next hgt => exact absurd hgt (h.ordered lo rfl hi rfl)
    · refine .ite (fun _ => .ite (fun hwhole => ?_) fun _ => .ok _) fun _ =>
        blameless_rangeOfLeaves ..
      exact .bind (blameless_get hwhole.1) fun o _ => .ok _
    · exact blameless_rangeOfLeaves ..
  · exact blameless_rangeOfLeaves ..

theorem blameless_between {lower upper : Option Key} (h : r.Bounds lower upper) :
    r.Blameless (r.between lower upper) := by
  unfold between rangeRun
  split
  · exact r.blameless_all
  · exact Run.failsOnly_ofExcept (blameless_range h) fun s _ => blameless_drain s

end Queries

/-! ### Bad arguments -/

section Arguments
variable {r : Reader} {lower upper : Option Key}

theorem get_of_length_ne {key : Key} (h : key.length ≠ r.keyLength) :
    r.get key = .error (.argument (.keyLength r.keyLength key.length)) := if_pos h

theorem checkBound_of_not_isBound {k : Key} (h : ¬ r.IsBound k) :
    r.checkBound (some k) = .error (.argument (.boundLength k.length r.keyLength)) := by
  refine if_pos ?_
  by_contra hgood
  exact h ⟨fun hk => hgood (Or.inl hk), Nat.le_of_not_lt fun hlt => hgood (Or.inr hlt)⟩

/-- A bound of a wrong length is told before anything is read. -/
theorem range_of_not_isBound {k : Key} (hk : k ∈ lower ∨ k ∈ upper) (h : ¬ r.IsBound k) :
    ∃ k', (k' ∈ lower ∨ k' ∈ upper) ∧ ¬ r.IsBound k' ∧
      r.range lower upper = .error (.argument (.boundLength k'.length r.keyLength)) := by
  by_cases hlower : ∃ lo ∈ lower, ¬ r.IsBound lo
  · obtain ⟨lo, rfl, hlo⟩ := hlower
    refine ⟨lo, Or.inl rfl, hlo, ?_⟩
    unfold range
    rw [checkBound_of_not_isBound hlo]
    rfl
  · have hgood : ∀ lo ∈ lower, r.IsBound lo := fun lo hlo =>
      not_not.mp fun hbad => hlower ⟨lo, hlo, hbad⟩
    obtain rfl : upper = some k := hk.resolve_left fun hk => h (hgood k hk)
    refine ⟨k, Or.inr rfl, h, ?_⟩
    unfold range
    rw [checkBound_eq_ok hgood, checkBound_of_not_isBound h]
    rfl

theorem range_of_reversed {lo hi : Key} (hlo : r.IsBound lo) (hhi : r.IsBound hi)
    (h : compareKeys lo hi = .gt) :
    r.range (some lo) (some hi) = .error (.argument .boundsReversed) := by
  unfold range
  rw [checkBound_eq_ok (by rintro k ⟨⟩; exact hlo),
    checkBound_eq_ok (by rintro k ⟨⟩; exact hhi)]
  simp only [bind, Except.bind, h]

theorem between_of_range_error {e : Error} (hbound : lower ≠ none ∨ upper ≠ none)
    (h : r.range lower upper = .error e) : r.between lower upper = .error e := by
  unfold between
  split
  · simp at hbound
  · rw [rangeRun, h]
    rfl

end Arguments

/-! ### All queries -/

/-- **What queries fail by if their arguments are good**: by errors of the file. -/
structure BlamesFile (r : Reader) : Prop where
  all : r.Blameless r.all
  get : ∀ key, key.length = r.keyLength → r.Blameless (r.get key)
  range : ∀ lower upper, r.Bounds lower upper → r.Blameless (r.range lower upper)
  next : ∀ s, ∀ x ∈ (r.next s).1, r.Blameless x
  drain : ∀ s, r.Blameless (r.drain s).toExcept
  between : ∀ lower upper, r.Bounds lower upper → r.Blameless (r.between lower upper)

/-- **What queries fail by if their arguments are bad**: by an error that says what is wrong with
them. -/
structure BlamesCaller (r : Reader) : Prop where
  get : ∀ key, key.length ≠ r.keyLength →
    r.get key = .error (.argument (.keyLength r.keyLength key.length))
  length : ∀ lower upper, (∃ k, (k ∈ lower ∨ k ∈ upper) ∧ ¬ r.IsBound k) →
    ∃ k, (k ∈ lower ∨ k ∈ upper) ∧ ¬ r.IsBound k ∧
      r.range lower upper = .error (.argument (.boundLength k.length r.keyLength)) ∧
      r.between lower upper = .error (.argument (.boundLength k.length r.keyLength))
  reversed : ∀ lo hi, r.IsBound lo → r.IsBound hi → compareKeys lo hi = .gt →
    r.range (some lo) (some hi) = .error (.argument .boundsReversed) ∧
    r.between (some lo) (some hi) = .error (.argument .boundsReversed)

theorem blamesFile (r : Reader) : r.BlamesFile where
  all := r.blameless_all
  get _ := blameless_get
  range _ _ := blameless_range
  next := blameless_next
  drain := blameless_drain
  between _ _ := blameless_between

theorem blamesCaller (r : Reader) : r.BlamesCaller where
  get _ := get_of_length_ne
  length lower upper := by
    rintro ⟨k, hk, hbad⟩
    obtain ⟨k', hk', hbad', h⟩ := range_of_not_isBound hk hbad
    refine ⟨k', hk', hbad', h, between_of_range_error ?_ h⟩
    exact hk'.imp (fun hm hn => by simp [hn] at hm) fun hm hn => by simp [hn] at hm
  reversed lo hi hlo hhi h := by
    have hrange := range_of_reversed hlo hhi h
    exact ⟨hrange, between_of_range_error (Or.inl (by simp)) hrange⟩

theorem lt_of_candidate {i : Image} {page : Nat} {p : Page}
    (h : Root.candidate i page = .ok p) : page < i.pageCount := by
  unfold Root.candidate at h
  split at h
  · assumption
  · cases h

theorem lt_of_search {i : Image} {page skips root : Nat} {x : IndexPage}
    (h : Root.search i page skips = .ok (root, x)) : root < i.pageCount := by
  have found : ∀ {page p}, Root.candidate i page = .ok p →
      (Root.accept p >>= fun x => .ok (page, x)) = .ok (root, x) → root < i.pageCount := by
    intro page p hp h
    obtain ⟨_, -, h⟩ := bind_eq_ok.mp h
    cases h
    exact lt_of_candidate hp
  induction skips generalizing page with
  | zero =>
    obtain ⟨p, hp, h⟩ := bind_eq_ok.mp h
    exact found hp h
  | succ skips ih =>
    unfold Root.search at h
    obtain ⟨p, hp, h⟩ := bind_eq_ok.mp h
    split at h
    · exact ih h
    · exact found hp h

/-- The root of a reader that was opened is a page of the image. -/
theorem root_lt_of_ofBuffer {o : Options} {data : Buffer} {t : Table} {r : Reader}
    (h : ofBuffer o data t = .ok r) : r.root < r.pageCount := by
  obtain ⟨i, -, h⟩ := bind_eq_ok.mp h
  unfold Reader.of at h
  obtain ⟨codec, -, h⟩ := bind_eq_ok.mp h
  obtain ⟨⟨root, x⟩, hroot, h⟩ := bind_eq_ok.mp h
  cases h
  unfold Root.find at hroot
  split at hroot
  · exact lt_of_search hroot
  · exact lt_of_search hroot

/-- **Whom queries blame**: with bad arguments the caller, whatever the image holds. With good ones
an error has the kind of a bad argument only if it is that of a page number beyond the image, which
is then not the root that the reader was opened with. -/
theorem blames (r : Reader) :
    r.BlamesFile ∧ r.BlamesCaller ∧
      ∀ o data t, ofBuffer o data t = .ok r → r.root < r.pageCount :=
  ⟨r.blamesFile, r.blamesCaller, fun _ _ _ => root_lt_of_ofBuffer⟩

/-- **A damaged image that makes a full scan fail by a bad argument**: the tree of two leaves, its
first node pointer leading to page 200. The scan has no arguments. -/
theorem all_blames_caller : ∃ r,
    ofBuffer .default (TwoLeaves.patched (3 * pageSize + 129) [0, 0, 0, 200]).image.data
      TwoLeaves.reader.table = .ok r ∧
    r.all = .error (.argument (.pageNumber 200 6)) := by
  have hall : ((ofBuffer .default
      (TwoLeaves.patched (3 * pageSize + 129) [0, 0, 0, 200]).image.data
      TwoLeaves.reader.table).bind fun r => match r.all with
        | .error (.argument (.pageNumber page count)) => .ok (page, count)
        | _ => .ok (0, 0)) = .ok (200, 6) := by
    decide +kernel
  obtain ⟨r, hr, hall⟩ := bind_eq_ok.mp hall
  refine ⟨r, hr, ?_⟩
  split at hall
  · next page count h =>
    cases hall
    exact h
  · cases hall

end Tablespace.Reader
