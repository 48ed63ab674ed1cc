import Tablespace.Image
import Tablespace.Proofs.CursorPrograms
import Tablespace.Record.Chain
import Tablespace.Tree.Run

/-! # What loading and decoding fail by

Loading a page and decoding its records fails because of the page, of what a format cannot do, or of
a page number beyond the image. That last failure has the kind of those that blame the caller,
though the number may come from the file: an overflow pointer or the link of an overflow page leads
anywhere.

* `FailsOnly`: a computation that fails by some errors only, closed under the ways to compose
  computations.
* `Read.Bounded`: a program that fails only by a read out of bounds.
* `Error.OfFile`: the errors that a file gives. `Image.failsOnly_load`, `Codec.failsOnly_read`:
  pages and records are read with no other. -/

namespace Tablespace

/-- **A computation that fails by some errors only.** -/
structure FailsOnly (P : Error → Prop) (x : Except Error α) : Prop where
  holds : ∀ e, x = .error e → P e

namespace FailsOnly
variable {P : Error → Prop}

theorem ok (a : α) : FailsOnly P (.ok a : Except Error α) := ⟨nofun⟩

theorem error {e : Error} (h : P e) : FailsOnly P (.error e : Except Error α) := by
  constructor
  rintro _ ⟨⟩
  exact h

theorem bind {x : Except Error α} {f : α → Except Error β} (hx : FailsOnly P x)
    (hf : ∀ a, x = .ok a → FailsOnly P (f a)) : FailsOnly P (x >>= f) := by
  cases x with
  | error e => exact error (hx.holds e rfl)
  | ok a => exact hf a rfl

theorem map {x : Except Error α} (hx : FailsOnly P x) (f : α → β) : FailsOnly P (f <$> x) := by
  cases x with
  | error e => exact error (hx.holds e rfl)
  | ok a => exact ok _

theorem mapError {ε : Type} {f : ε → Error} {x : Except ε α} (hf : ∀ e, x = .error e → P (f e)) :
    FailsOnly P (x.mapError f) := by
  cases x with
  | error e => exact error (hf e rfl)
  | ok a => exact ok a

theorem ite {p : Prop} [Decidable p] {x y : Except Error α} (hx : p → FailsOnly P x)
    (hy : ¬ p → FailsOnly P y) : FailsOnly P (if p then x else y) := by
  split
  · next h => exact hx h
  · next h => exact hy h

end FailsOnly

namespace Run
variable {P : Error → Prop}

theorem failsOnly_prepend {run : Run Error α} (h : FailsOnly P run.toExcept) (rows : List α) :
    FailsOnly P (run.prepend rows).toExcept := by
  obtain ⟨rows', failure⟩ := run
  cases failure with
  | none => exact .ok _
  | some e => exact .error (h.holds e rfl)

theorem failsOnly_ofExcept {x : Except Error β} {f : β → Run Error α} (hx : FailsOnly P x)
    (hf : ∀ b, x = .ok b → FailsOnly P (f b).toExcept) : FailsOnly P (ofExcept x f).toExcept := by
  cases x with
  | error e => exact .error (hx.holds e rfl)
  | ok b => exact hf b rfl

theorem failsOnly_concat {f : β → Run Error α} {l : List β}
    (h : ∀ b ∈ l, FailsOnly P (f b).toExcept) : FailsOnly P (concat f l).toExcept := by
  induction l with
  | nil => exact .ok _
  | cons b l ih =>
    rw [concat, toExcept_andThen]
    refine .bind (h b List.mem_cons_self) fun rows _ => ?_
    exact .bind (ih fun b hb => h b (List.mem_cons_of_mem _ hb)) fun rows' _ => .ok _

end Run

/-! ### Programs that read -/

/-- A read out of the bounds of its buffer. -/
def ReadError.IsBounds (e : ReadError) : Prop :=
  ∃ offset length size, e = .outOfBounds offset length size

/-- **A program that fails only by a read out of bounds**, wherever it starts. -/
structure Read.Bounded (r : Read α) : Prop where
  error : ∀ c e c', r c = .error e c' → e.IsBounds

namespace Read.Bounded

theorem pure (a : α) : Bounded (Pure.pure a : Read α) := by
  constructor
  intro c e c' h
  cases h

theorem bind {r : Read α} {f : α → Read β} (hr : Bounded r) (hf : ∀ a, Bounded (f a)) :
    Bounded (r >>= f) := by
  constructor
  intro c e c' h
  change EStateM.bind r f c = _ at h
  unfold EStateM.bind at h
  split at h
  · next a c₁ _ => exact (hf a).error c₁ e c' h
  · next e₁ c₁ he =>
    cases h
    exact hr.error c e c' he

theorem map {r : Read α} (hr : Bounded r) (f : α → β) : Bounded (f <$> r) := by
  constructor
  intro c e c' h
  change EStateM.map f r c = _ at h
  unfold EStateM.map at h
  split at h
  · cases h
  · next e₁ c₁ he =>
    cases h
    exact hr.error c e c' he

theorem bytes (n : Nat) : Bounded (Read.bytes n) := by
  constructor
  intro c e c' h
  by_cases hn : n ≤ c.remaining
  · obtain ⟨l, hl, -⟩ := (Read.does_bytes c n).ok hn
    rw [hl] at h
    cases h
  · rw [(Read.does_bytes c n).error hn] at h
    cases h
    exact ⟨_, _, _, rfl⟩

theorem unsigned (n : Nat) : Bounded (Read.unsigned n) := .bind (.bytes n) fun _ => .pure _

theorem uint {n : Nat} (h : 0 < n ∧ n ≤ 8) : Bounded (Read.uint n) := by
  unfold Read.uint
  rw [if_neg (by omega)]
  exact .unsigned n

theorem of_at? {b : Buffer} {position : Nat} {e : ReadError}
    (h : Cursor.at? b position = .error e) : e.IsBounds := by
  unfold Cursor.at? at h
  split at h
  · cases h
  · cases h
    exact ⟨_, _, _, rfl⟩

theorem of_runAt {r : Read α} (hr : Bounded r) {c : Cursor} {e : ReadError}
    (h : r.runAt c = .error e) : e.IsBounds := by
  unfold Read.runAt at h
  split at h
  · cases h
  · next e₁ c₁ he =>
    cases h
    exact hr.error c e c₁ he

theorem of_from? {r : Read α} (hr : Bounded r) {b : Buffer} {position : Nat} {e : ReadError}
    (h : Read.from? b position r = .error e) : e.IsBounds := by
  unfold Read.from? at h
  cases hc : Cursor.at? b position with
  | error e₁ =>
    rw [hc] at h
    cases h
    exact of_at? hc
  | ok c =>
    rw [hc] at h
    change (r.runAt c >>= fun x => .ok x.1) = _ at h
    cases hx : r.runAt c with
    | error e₁ =>
      rw [hx] at h
      cases h
      exact hr.of_runAt hx
    | ok x =>
      rw [hx] at h
      cases h

theorem pageHeader : Bounded PageHeader.read :=
  .bind (.unsigned 4) fun _ => .bind (.unsigned 4) fun _ => .bind (.unsigned 4) fun _ =>
  .bind (.unsigned 4) fun _ => .bind (.unsigned 8) fun _ => .bind (.map (.unsigned 2) _) fun _ =>
  .bind (.unsigned 8) fun _ => .bind (.unsigned 4) fun _ => .pure _

theorem pageTrailer : Bounded PageTrailer.read :=
  .bind (.unsigned 4) fun _ => .bind (.unsigned 4) fun _ => .pure _

theorem indexHeader : Bounded IndexHeader.read :=
  .bind (.unsigned 2) fun _ => .bind (.unsigned 2) fun _ => .bind (.unsigned 2) fun _ =>
  .bind (.unsigned 2) fun _ => .bind (.unsigned 2) fun _ => .bind (.unsigned 2) fun _ =>
  .bind (.unsigned 2) fun _ => .bind (.unsigned 2) fun _ => .bind (.unsigned 2) fun _ =>
  .bind (.unsigned 8) fun _ => .bind (.unsigned 2) fun _ => .bind (.unsigned 8) fun _ => .pure _

theorem segmentAddress : Bounded SegmentAddress.read :=
  .bind (.unsigned 4) fun _ => .bind (.unsigned 4) fun _ => .bind (.unsigned 2) fun _ => .pure _

end Read.Bounded

/-! ### The errors of a file -/

/-- **The errors that a file of so many pages gives**: of those that have the kind of an argument,
only that of a page number beyond the pages. -/
def Error.OfFile (pages : Nat) (e : Error) : Prop :=
  e.kind = .argument → ∃ page, pages ≤ page ∧ e = .argument (.pageNumber page pages)

namespace FailsOnly
variable {pages : Nat}

theorem of_kind {e : Error} (h : e.kind ≠ .argument) :
    FailsOnly (Error.OfFile pages) (.error e : Except Error α) :=
  .error fun he => absurd he h

theorem corrupt (page : Nat) (cause : Damage) :
    FailsOnly (Error.OfFile pages) (.error (.corrupt page cause) : Except Error α) :=
  of_kind (by simp [Error.kind])

theorem unsupported (cause : FormatUnsupported) :
    FailsOnly (Error.OfFile pages) (.error (.unsupported cause) : Except Error α) :=
  of_kind (by simp [Error.kind])

theorem stray (offset : Nat) :
    FailsOnly (Error.OfFile pages) (.error (.stray offset) : Except Error α) :=
  of_kind (by simp [Error.kind])

theorem damaged (p : Page) (cause : Damage) :
    FailsOnly (Error.OfFile pages) (p.damaged cause : Except Error α) :=
  corrupt ..

theorem bounds {e : ReadError} (h : e.IsBounds) : Error.OfFile pages (.read e) := by
  obtain ⟨offset, length, size, rfl⟩ := h
  intro he
  cases he

theorem at? (b : Buffer) (position : Nat) :
    FailsOnly (Error.OfFile pages) ((Cursor.at? b position).mapError .read) :=
  .mapError fun _ he => bounds (Read.Bounded.of_at? he)

theorem runAt {r : Read α} (hr : r.Bounded) (c : Cursor) :
    FailsOnly (Error.OfFile pages) ((r.runAt c).mapError .read) :=
  .mapError fun _ he => bounds (hr.of_runAt he)

theorem readFrom {r : Read α} (hr : r.Bounded) (b : Buffer) (position : Nat) :
    FailsOnly (Error.OfFile pages) (b.readFrom position r) :=
  .mapError fun _ he => bounds (hr.of_from? he)

end FailsOnly

/-! ### Pages -/

section Pages
variable {pages : Nat}

theorem Page.failsOnly_frame (n : Nat) (b : Buffer) :
    FailsOnly (Error.OfFile pages) (frame n b) := by
  unfold frame
  split
  · refine .bind (.readFrom .pageHeader ..) fun header _ => ?_
    refine .bind (.readFrom .pageTrailer ..) fun trailer _ => ?_
    exact .ite (fun _ => .ok _) fun _ => .corrupt ..
  · exact .corrupt ..

theorem Page.failsOnly_expect (p : Page) (kind : PageKind) :
    FailsOnly (Error.OfFile pages) (p.expect kind) :=
  .ite (fun _ => .ok _) fun _ => .damaged ..

/-- **A page is loaded**, or fails by its bytes, or its number is beyond the image. -/
theorem Image.failsOnly_load (i : Image) (page : Nat) :
    FailsOnly (Error.OfFile i.pageCount) (i.load page) := by
  unfold load
  refine .bind ?_ fun data _ => ?_
  · refine .ite (fun _ => .ok _) fun h => .error fun _ => ?_
    exact ⟨page, Nat.le_of_not_lt h, rfl⟩
  · split
    · refine .bind (.ite (fun _ => .ok _) fun _ => .corrupt ..) fun _ _ => ?_
      exact Page.failsOnly_frame ..
    · exact Page.failsOnly_frame ..

namespace IndexPage
variable (p : Page)

theorem failsOnly_bytesAt (start n : Nat) :
    FailsOnly (Error.OfFile pages) (bytesAt p.data start n) :=
  .ite (fun _ => .ok _) fun _ => .stray _

theorem failsOnly_slotsFrom (directory i n : Nat) :
    FailsOnly (Error.OfFile pages) (slotsFrom p directory i n) := by
  induction n generalizing i with
  | zero => exact .ok _
  | succ n ih =>
    rw [slotsFrom]
    refine .bind (.readFrom (.unsigned 2) ..) fun origin _ => ?_
    exact .ite (fun _ => .damaged ..) fun _ => .bind (ih _) fun l _ => .ok _

theorem failsOnly_directoryOf (h : IndexHeader) :
    FailsOnly (Error.OfFile pages) (directoryOf p h) := by
  unfold directoryOf
  refine .ite (fun _ => .damaged ..) fun _ => .ite (fun _ => .damaged ..) fun _ => ?_
  refine .bind (failsOnly_slotsFrom ..) fun l _ => ?_
  simp only
  split
  · exact .ite (fun _ => .ok _) fun _ => .damaged ..
  · exact .stray _

theorem failsOnly_ofPage : FailsOnly (Error.OfFile pages) (ofPage p) := by
  have segments : (do
      let leaf ← SegmentAddress.read
      let internal ← SegmentAddress.read
      return (leaf, internal) : Read (SegmentAddress × SegmentAddress)).Bounded :=
    .bind .segmentAddress fun _ => .bind .segmentAddress fun _ => .pure _
  unfold ofPage
  refine .ite (fun _ => .damaged ..) fun _ => ?_
  refine .bind (.readFrom .indexHeader ..) fun header _ => ?_
  refine .ite (fun _ => .unsupported _) fun _ => ?_
  refine .bind (.readFrom segments ..) fun _ _ => ?_
  refine .bind (failsOnly_bytesAt p ..) fun infimum _ => ?_
  refine .ite (fun _ => .damaged ..) fun _ => ?_
  refine .bind (failsOnly_bytesAt p ..) fun supremum _ => ?_
  refine .ite (fun _ => .damaged ..) fun _ => ?_
  exact .bind (failsOnly_directoryOf ..) fun slots _ => .ok _

end IndexPage

theorem BlobPart.failsOnly_ofPage (p : Page) (offset : Nat) :
    FailsOnly (Error.OfFile pages) (ofPage p offset) := by
  have links : (do
      let length ← Read.u32
      let next ← Read.u32
      return (length, next) : Read (Nat × Nat)).Bounded :=
    .bind (.unsigned 4) fun _ => .bind (.unsigned 4) fun _ => .pure _
  unfold ofPage
  refine .ite (fun _ => ?_) fun _ => ?_
  · exact .ite (fun _ => .unsupported _) fun _ => .damaged ..
  · refine .bind (.readFrom links ..) fun part _ => ?_
    exact .ite (fun _ => .damaged ..) fun _ => .ok _

namespace PageSource
variable {src : PageSource} (hsrc : ∀ page, FailsOnly (Error.OfFile pages) (src page))
include hsrc

theorem failsOnly_partOf (page offset : Nat) :
    FailsOnly (Error.OfFile pages) (src.partOf page offset) := by
  unfold partOf
  refine .bind (hsrc page) fun p _ => .bind (BlobPart.failsOnly_ofPage ..) fun part _ => ?_
  refine .ite (fun _ => .corrupt ..) fun _ => ?_
  exact .bind (.ite (fun _ => .ok _) fun _ => .stray _) fun l _ => .ok _

theorem failsOnly_externalFrom (total done : Nat) (visited : List Nat) (page offset : Nat) :
    FailsOnly (Error.OfFile pages) (src.externalFrom total done visited page offset) := by
  fun_induction externalFrom src total done visited page offset with
  | case1 => exact .ok _
  | case2 => exact .corrupt ..
  | case3 done visited page offset h hv e he =>
    exact .error ((failsOnly_partOf hsrc page offset).holds e he)
  | case4 done visited page offset h hv part data hp shown next hn ih =>
    exact .bind ih fun l _ => .ok _
  | case5 => exact .ok _
  | case6 => exact .corrupt ..

end PageSource
end Pages

/-! ### Records -/

namespace Codec
variable {pages : Nat} {src : PageSource} {p : Page} {c : Codec}

theorem failsOnly_byteOf (p : Page) (i : Nat) : FailsOnly (Error.OfFile pages) (byteOf p i) := by
  unfold byteOf
  split
  · exact .ok _
  · exact .stray _

theorem failsOnly_isNull (p : Page) (header bit : Nat) :
    FailsOnly (Error.OfFile pages) (isNull p header bit) :=
  .ite (fun _ => .stray _) fun _ => .bind (failsOnly_byteOf ..) fun _ _ => .ok _

theorem failsOnly_lengthByte (p : Page) (h : Heads) :
    FailsOnly (Error.OfFile pages) (lengthByte p h) := by
  unfold lengthByte
  split
  · exact .damaged ..
  · exact .bind (failsOnly_byteOf ..) fun _ _ => .ok _

theorem failsOnly_fieldLength (p : Page) (f : Field) (h : Heads) :
    FailsOnly (Error.OfFile pages) (fieldLength p f h) := by
  unfold fieldLength
  split
  · exact .ok _
  · refine .bind (failsOnly_lengthByte ..) fun first _ => .ite (fun _ => ?_) fun _ => .ok _
    exact .bind (failsOnly_lengthByte ..) fun _ _ => .ok _

theorem failsOnly_readBody {r : Read α} (hr : r.Bounded) (h : Heads) :
    FailsOnly (Error.OfFile pages) (readBody h r) :=
  .bind (.runAt hr h.body) fun _ _ => .ok _

theorem failsOnly_readHeader (p : Page) (origin : Nat) :
    FailsOnly (Error.OfFile pages) (readHeader p origin) := by
  unfold readHeader
  refine .bind (.mapError fun e _ he => by cases he) fun header _ => ?_
  split
  · exact .bind (.ite (fun _ => .damaged ..) fun _ => .ok _) fun _ _ => .ok _
  · exact .ok _

section Source
variable (hsrc : ∀ page, FailsOnly (Error.OfFile pages) (src page))
include hsrc

theorem failsOnly_resolve (p : Page) (stored : List UInt8) :
    FailsOnly (Error.OfFile pages) (resolve src p stored) := by
  unfold resolve
  refine .ite (fun _ => .damaged ..) fun _ => ?_
  refine .bind (.ite (fun _ => .ok _) fun _ => .error (FailsOnly.bounds ⟨_, _, _, rfl⟩))
    fun ptr _ => ?_
  exact .bind (PageSource.failsOnly_externalFrom hsrc ..) fun tail _ => .ok _

theorem failsOnly_readBytes (f : Field) (h : Heads) :
    FailsOnly (Error.OfFile pages) (readBytes src p f h) := by
  unfold readBytes
  refine .bind (failsOnly_fieldLength ..) fun length _ => ?_
  refine .bind (failsOnly_readBody (.bytes _) _) fun stored _ => ?_
  refine .ite (fun _ => ?_) fun _ => ?_
  · exact .bind (failsOnly_resolve hsrc ..) fun bytes _ => .ok _
  · exact .bind (.ok _) fun bytes _ => .ok _

theorem failsOnly_readField (header : Nat) (f : Field) (h : Heads) :
    FailsOnly (Error.OfFile pages) (c.readField src p header f h) := by
  have rest : ∀ null : Bool, FailsOnly (Error.OfFile pages) (if null then .ok (Value.null, h)
      else readBytes src p f h >>= fun x => .ok (c.decodeField f x.1, x.2)) := by
    intro null
    exact .ite (fun _ => .ok _) fun _ => .bind (failsOnly_readBytes hsrc ..) fun _ _ => .ok _
  unfold readField
  simp only
  split
  · exact .bind (failsOnly_isNull ..) fun null _ => rest null
  · exact .bind (.ok _) fun null _ => rest null

theorem failsOnly_readFields (header : Nat) (fs : List Field) (h : Heads) :
    FailsOnly (Error.OfFile pages) (c.readFields src p header fs h) := by
  induction fs generalizing h with
  | nil => exact .ok _
  | cons f fs ih =>
    rw [readFields]
    refine .bind (failsOnly_readField hsrc ..) fun value _ => ?_
    exact .bind (ih _) fun _ _ => .ok _

theorem failsOnly_readUser (leaf : Bool) (depth : Depth) (r : Record) :
    FailsOnly (Error.OfFile pages) (c.readUser src p leaf depth r) := by
  unfold readUser
  refine .ite (fun _ => .damaged ..) fun _ => .bind (.at? ..) fun body _ => ?_
  refine .bind (failsOnly_readFields hsrc ..) fun key _ => ?_
  refine .ite (fun _ => ?_) fun _ => .ite (fun _ => .ok _) fun _ => ?_
  · exact .bind (failsOnly_readBody (.unsigned 4) _) fun _ _ => .ok _
  · refine .bind (failsOnly_readBody (.unsigned 6) _) fun transaction _ => ?_
    refine .bind (failsOnly_readBody (.uint (by decide)) _) fun roll _ => ?_
    exact .bind (failsOnly_readFields hsrc ..) fun _ _ => .ok _

/-- **A record is read**, or fails by the bytes of its page and of overflow pages, or the number of
an overflow page is beyond the image. -/
theorem failsOnly_read (p : Page) (leaf : Bool) (depth : Depth) (origin : Nat) :
    FailsOnly (Error.OfFile pages) (c.read src p leaf depth origin) := by
  unfold read
  refine .bind (failsOnly_readHeader ..) fun header _ => ?_
  simp only
  split
  · exact .ok _
  · exact .ok _
  · exact failsOnly_readUser hsrc ..
  · exact failsOnly_readUser hsrc ..
  · exact .damaged ..

end Source
end Codec
end Tablespace
