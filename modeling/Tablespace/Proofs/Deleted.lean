import Tablespace.Proofs.Strictness

/-! # Hidden rows

Rows that are marked as deleted are shown or hidden by an option. It is asked only after a page has
been decoded and checked, or a key has been found, so that what is hidden is what is left out: a
hidden row neither hides a failure of a scan nor causes one.

* `Options.showing`, `Reader.showing`: the same but for that option.
* `Reader.all_showing`: a scan that hides rows is one that shows them, less those.
* `Reader.get_showing`: a lookup that hides rows is one that shows them, unless it comes to one.
* `Reader.hides_deleted`: both, of the readers of a table that the bytes of a file hold. -/

namespace Tablespace

/-- The options, but for whether rows that are marked as deleted are shown. -/
def Options.showing (o : Options) (deleted : Bool) : Options := { o with includeDeleted := deleted }

/-- The reader, but for whether rows that are marked as deleted are shown. -/
def Reader.showing (r : Reader) (deleted : Bool) : Reader :=
  { r with options := r.options.showing deleted }

namespace Reader
variable {r : Reader} {deleted : Bool} {n : Node} {key : Key} {aim : Aim}

theorem isVisible_showing (r : Reader) (deleted : Bool) :
    (r.showing deleted).isVisible = fun rec => deleted || !rec.isDeleted := rfl

theorem probe_showing (n : Node) (origin : Nat) :
    (r.showing deleted).probe n origin = r.probe n origin := rfl

theorem records_showing (n : Node) : (r.showing deleted).records n = r.records n := rfl

theorem childNode_showing (parent page : Nat) :
    (r.showing deleted).childNode parent page = r.childNode parent page := rfl

/-! ### Scans -/

theorem subtree_showing (r : Reader) (level : Nat) (n : Node) :
    (r.showing false).subtree level n =
      ((r.showing true).subtree level n).filter fun rec => !rec.isDeleted := by
  induction level generalizing n with
  | zero =>
    rw [subtree, subtree, Run.filter_ofExcept, records_showing, records_showing]
    refine congrArg _ (funext fun l => ?_)
    simp [Run.done, Run.filter, isVisible_showing]
  | succ level ih =>
    rw [subtree, subtree, Run.filter_ofExcept, records_showing, records_showing]
    refine congrArg _ (funext fun l => ?_)
    simp only [Run.filter_concat, Run.filter_ofExcept, childNode_showing, ih]

/-- **A scan that hides deleted rows is one that shows them, less those**, and fails alike. -/
theorem all_showing (r : Reader) :
    (r.showing false).all = List.filter (fun rec => !rec.isDeleted) <$> (r.showing true).all := by
  have hroot : (r.showing false).node (r.showing false).root =
      (r.showing true).node (r.showing true).root := rfl
  unfold all traverse
  rw [← Run.toExcept_filter, Run.filter_ofExcept, hroot]
  simp only [subtree_showing]

/-! ### Searches -/

theorem bracket_showing (lo hi : Nat) :
    (r.showing deleted).bracket n key aim lo hi = r.bracket n key aim lo hi := by
  induction hd : hi - lo using Nat.strongRecOn generalizing lo hi with
  | ind d ih =>
    rw [bracket, bracket.eq_def r]
    split
    · next hlt =>
      simp only [probe_showing]
      rw [ih _ (by omega) ((lo + hi) / 2) hi rfl, ih _ (by omega) lo ((lo + hi) / 2) rfl]
    · rfl

theorem scan_showing (steps : Nat) (prev : Record) :
    (r.showing deleted).scan n key aim steps prev = r.scan n key aim steps prev := by
  induction steps generalizing prev with
  | zero => rfl
  | succ steps ih =>
    rw [scan, scan]
    simp only [probe_showing, ih]

theorem locate_showing (n : Node) (key : Key) (aim : Aim) :
    (r.showing deleted).locate n key aim = r.locate n key aim := by
  unfold locate
  simp only [probe_showing, bracket_showing, scan_showing]

theorem childFor_showing (n : Node) (target : Option Key) (aim : Aim) :
    (r.showing deleted).childFor n target aim = r.childFor n target aim := by
  unfold childFor firstChild
  simp only [probe_showing, locate_showing]

theorem descendFrom_showing (target : Option Key) (aim : Aim) (level : Nat) (n : Node) :
    (r.showing deleted).descendFrom target aim level n = r.descendFrom target aim level n := by
  induction level generalizing n with
  | zero => rfl
  | succ level ih =>
    rw [descendFrom, descendFrom]
    simp only [childFor_showing, childNode_showing, ih]

/-- A search goes the same way, whatever rows are shown. -/
theorem descend_showing (target : Option Key) (aim : Aim) :
    (r.showing deleted).descend target aim = r.descend target aim := by
  have hroot : (r.showing deleted).node (r.showing deleted).root = r.node r.root := rfl
  unfold descend
  simp only [hroot, descendFrom_showing]

/-! ### Lookups -/

/-- A match is marked as deleted as its record is. -/
theorem isDeleted_of_match {target : Option Key} {a rec : Record}
    (hdescend : r.descend target aim = .ok n) (hlocate : r.locate n key aim = .ok (.at a))
    (hread : r.codec.read r.source n.page true .full a.origin = .ok rec) :
    rec.isDeleted = a.isDeleted := by
  obtain ⟨page, -, hlevel⟩ := descend_eq_ok hdescend
  rw [← keyPart_of_match hlevel hlocate hread]
  rfl

/-- **A lookup that hides deleted rows is one that shows them**, unless what it comes to is one:
then it gives nothing, though the row may fail to be decoded. -/
theorem get_showing (r : Reader) (key : Key) :
    ((r.showing false).get key = (r.showing true).get key ∧
      ∀ rec, (r.showing true).get key = .ok (some rec) → rec.isDeleted = false) ∨
    ((r.showing false).get key = .ok none ∧
      ∀ found, (r.showing true).get key = .ok found → ∃ rec, found = some rec ∧ rec.isDeleted) := by
  have hlength : ∀ deleted, (r.showing deleted).keyLength = r.keyLength := fun _ => rfl
  unfold get
  simp only [hlength, descend_showing, locate_showing, isVisible_showing]
  split
  · exact .inl ⟨rfl, nofun⟩
  · cases hdescend : r.descend (some key) .equal with
    | error e => exact .inl ⟨rfl, nofun⟩
    | ok n =>
      simp only [bind, Except.bind]
      cases hlocate : r.locate n key .equal with
      | error e => exact .inl ⟨rfl, nofun⟩
      | ok place =>
        cases place with
        | between prev next => exact .inl ⟨rfl, nofun⟩
        | «at» a =>
          have hmark : ∀ found, some <$> r.codec.read r.source n.page true .full a.origin =
              .ok found → ∃ rec, found = some rec ∧ rec.isDeleted = a.isDeleted := by
            intro found h
            obtain ⟨rec, hread, rfl⟩ := map_eq_ok.mp h
            exact ⟨rec, rfl, isDeleted_of_match hdescend hlocate hread⟩
          cases hdeleted : a.isDeleted with
          | true =>
            simp only [hdeleted]
            refine .inr ⟨rfl, fun found h => ?_⟩
            obtain ⟨rec, hrec, hsame⟩ := hmark found h
            exact ⟨rec, hrec, hsame.trans hdeleted⟩
          | false =>
            simp only [hdeleted]
            refine .inl ⟨rfl, fun rec h => ?_⟩
            obtain ⟨rec', hrec, hsame⟩ := hmark _ h
            cases hrec
            exact hsame.trans hdeleted

/-! ### Opening -/

theorem ofBuffer_showing (o : Options) (deleted : Bool) (data : Buffer) (t : Table) :
    ofBuffer (o.showing deleted) data t = (fun r => r.showing deleted) <$> ofBuffer o data t := by
  have himage : Image.ofBuffer (o.showing deleted) data = Image.ofBuffer o data := rfl
  have hcodec : Codec.of t (o.showing deleted) = Codec.of t o := rfl
  have hfind : ∀ i, Root.find i (o.showing deleted) = Root.find i o := fun _ => rfl
  unfold ofBuffer Reader.of
  simp only [himage, hcodec, hfind, map_bind, map_pure]
  rfl

/-- **Hiding the deleted rows only takes them away**: a scan gives those that are left, or fails
alike, and a lookup gives nothing where it would give one of them or fail to decode it. -/
theorem hides_deleted (o : Options) (data : Buffer) (t : Table) :
    (∀ e, ofBuffer (o.showing false) data t = .error e ↔
      ofBuffer (o.showing true) data t = .error e) ∧
    ∀ shown, ofBuffer (o.showing true) data t = .ok shown →
      ∃ hidden, ofBuffer (o.showing false) data t = .ok hidden ∧
        hidden.all = List.filter (fun rec => !rec.isDeleted) <$> shown.all ∧
        ∀ key,
          (∀ found, shown.get key = .ok found →
            hidden.get key = .ok (found.filter fun rec => !rec.isDeleted)) ∧
          (∀ rec, hidden.get key = .ok (some rec) → shown.get key = .ok (some rec)) ∧
          ∀ e, shown.get key = .error e →
            hidden.get key = .error e ∨ hidden.get key = .ok none := by
  rw [ofBuffer_showing, ofBuffer_showing]
  cases ofBuffer o data t with
  | error e => exact ⟨fun e' => .rfl, nofun⟩
  | ok r =>
    refine ⟨fun e' => ⟨nofun, nofun⟩, fun shown hshown => ?_⟩
    cases hshown
    refine ⟨r.showing false, rfl, r.all_showing, fun key => ?_⟩
    obtain ⟨hsame, hkept⟩ | ⟨hnone, hdropped⟩ := r.get_showing key
    · refine ⟨fun found h => ?_, fun rec h => hsame ▸ h, fun e h => .inl (hsame ▸ h)⟩
      rw [hsame, h]
      cases found with
      | none => rfl
      | some rec =>
        rw [Option.filter_some, hkept rec h]
        rfl
    · refine ⟨fun found h => ?_, fun rec h => ?_, fun e h => .inr hnone⟩
      · obtain ⟨rec, rfl, hdeleted⟩ := hdropped found h
        rw [hnone, Option.filter_some, hdeleted]
        rfl
      · rw [hnone] at h
        cases h

/-- The third row of the tree of two leaves is found where deleted rows are shown, and hidden where
they are not. -/
theorem hides_deleted_twoLeaves : ∃ shown hidden,
    ofBuffer (Options.default.showing true) TwoLeaves.image.data TwoLeaves.reader.table =
      .ok shown ∧
    ofBuffer (Options.default.showing false) TwoLeaves.image.data TwoLeaves.reader.table =
      .ok hidden ∧
    shown.get [.int 5] = .ok (some { TwoLeaves.row 5 125 2 22 5 with header.deleted := true }) ∧
    hidden.get [.int 5] = .ok none := by
  have hget : ((ofBuffer (Options.default.showing true) TwoLeaves.image.data
      TwoLeaves.reader.table).bind fun shown => shown.get [.int 5]) =
      .ok (some { TwoLeaves.row 5 125 2 22 5 with header.deleted := true }) := by
    decide +kernel
  obtain ⟨shown, hshown, hget⟩ := bind_eq_ok.mp hget
  obtain ⟨hidden, hhidden, -, hkeys⟩ := (hides_deleted _ _ _).2 shown hshown
  exact ⟨shown, hidden, hshown, hhidden, hget, (hkeys _).1 _ hget⟩

end Reader
end Tablespace
