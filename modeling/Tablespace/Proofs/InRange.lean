import Tablespace.Page.Body
import Tablespace.Proofs.Guarded

/-! # Pages and records in range

An access of a page, of its directory or of a part of a long value fails as a stray one where it is
out of range. None does, whatever the bytes, because of checks made elsewhere: a page has its size,
a header lies on its page, the null bitmap has room for every field, a directory has two slots, and
a part of a long value lies in the body of its page.

* `InRange`: a computation that does not fail by a stray access.
* `Image.inRange_load`, `IndexPage.inRange_ofPage`, `Page.inRange_decode`: pages are loaded and
  decoded in range.
* `Codec.inRange_read`: a record is read in range, whatever its page and its origin. -/

namespace Tablespace

/-- **A computation that does not fail by a stray access.** -/
structure InRange (x : Except Error α) : Prop where
  kind_ne : ∀ e, x = .error e → e.kind ≠ .stray

namespace InRange

theorem ok (a : α) : InRange (.ok a : Except Error α) := by
  constructor
  intro e he
  cases he

theorem error {e : Error} (h : e.kind ≠ .stray) : InRange (.error e : Except Error α) := by
  constructor
  intro e' he
  cases he
  exact h

theorem argument (cause : ArgumentError) : InRange (.error (.argument cause) : Except Error α) :=
  error (by simp [Error.kind])

theorem unsupported (cause : FormatUnsupported) :
    InRange (.error (.unsupported cause) : Except Error α) :=
  error (by simp [Error.kind])

theorem corrupt (page : Nat) (cause : Damage) :
    InRange (.error (.corrupt page cause) : Except Error α) :=
  error (by simp [Error.kind])

theorem damaged (p : Page) (cause : Damage) : InRange (p.damaged cause : Except Error α) :=
  corrupt ..

theorem bind {x : Except Error α} {f : α → Except Error β} (hx : InRange x)
    (hf : ∀ a, x = .ok a → InRange (f a)) : InRange (x >>= f) := by
  cases x with
  | error e => exact error (hx.kind_ne e rfl)
  | ok a => exact hf a rfl

theorem map {x : Except Error α} (hx : InRange x) (f : α → β) : InRange (f <$> x) := by
  cases x with
  | error e => exact error (hx.kind_ne e rfl)
  | ok a => exact ok _

theorem mapError {ε : Type} {f : ε → Error} (hf : ∀ e, (f e).kind ≠ .stray) (x : Except ε α) :
    InRange (x.mapError f) := by
  cases x with
  | error e => exact error (hf e)
  | ok a => exact ok a

theorem ite {P : Prop} [Decidable P] {x y : Except Error α} (hx : P → InRange x)
    (hy : ¬ P → InRange y) : InRange (if P then x else y) := by
  split
  · next h => exact hx h
  · next h => exact hy h

theorem mapM {f : α → Except Error β} {l : List α} (h : ∀ a ∈ l, InRange (f a)) :
    InRange (l.mapM f) := by
  induction l with
  | nil => exact ok _
  | cons a l ih =>
    rw [List.mapM_cons]
    refine bind (h a List.mem_cons_self) fun b _ => ?_
    refine bind (ih fun a ha => h a (List.mem_cons_of_mem _ ha)) fun bs _ => ?_
    exact ok _

end InRange

theorem kind_read (e : ReadError) : (Error.read e).kind ≠ .stray := by
  cases e <;> simp [Error.kind]

theorem Buffer.inRange_readFrom (b : Buffer) (position : Nat) (r : Read α) :
    InRange (b.readFrom position r) := .mapError kind_read _

/-! ### Pages -/

theorem Page.inRange_frame (n : Nat) (b : Buffer) : InRange (frame n b) := by
  unfold frame
  split
  · refine .bind (b.inRange_readFrom ..) fun header _ => ?_
    refine .bind (b.inRange_readFrom ..) fun trailer _ => ?_
    exact .ite (fun _ => .ok _) fun _ => .corrupt ..
  · exact .corrupt ..

theorem Page.inRange_expect (p : Page) (kind : PageKind) : InRange (p.expect kind) :=
  .ite (fun _ => .ok _) fun _ => .damaged ..

namespace Image
variable (i : Image) (page : Nat)

theorem inRange_raw : InRange (i.raw page) := .ite (fun _ => .ok _) fun _ => .argument _

theorem inRange_load : InRange (i.load page) := by
  unfold load
  refine .bind (i.inRange_raw page) fun data _ => ?_
  split
  · exact .bind (.ite (fun _ => .ok _) fun _ => .corrupt ..) fun _ _ => Page.inRange_frame ..
  · exact Page.inRange_frame ..

theorem inRange_loadHeader : InRange (i.loadHeader page) := by
  unfold loadHeader
  exact .bind (i.inRange_raw page) fun data _ => data.inRange_readFrom ..

end Image

namespace IndexPage
variable (p : Page)

theorem inRange_bytesAt {start n : Nat} (h : start + n ≤ pageSize) :
    InRange (bytesAt p.data start n) := by
  rw [bytesAt, if_pos (by rw [p.size_data]; exact h)]
  exact .ok _

theorem inRange_slotsFrom (directory i n : Nat) : InRange (slotsFrom p directory i n) := by
  induction n generalizing i with
  | zero => exact .ok _
  | succ n ih =>
    rw [slotsFrom]
    refine .bind (p.data.inRange_readFrom ..) fun origin _ => ?_
    exact .ite (fun _ => .damaged ..) fun _ => .bind (ih _) fun l _ => .ok _

theorem length_of_slotsFrom {directory i n : Nat} {l : List Nat}
    (h : slotsFrom p directory i n = .ok l) : l.length = n := by
  induction n generalizing i l with
  | zero =>
    cases h
    rfl
  | succ n ih =>
    rw [slotsFrom, bind_eq_ok] at h
    obtain ⟨origin, -, h⟩ := h
    split at h
    · exact absurd h Page.damaged_ne_ok
    · obtain ⟨l', hl, h⟩ := bind_eq_ok.mp h
      cases h
      rw [List.length_cons, ih hl]

/-- The first slot and the last are there, if there are two. -/
theorem exists_ends {directory i n : Nat} {l : List Nat} (h : slotsFrom p directory i n = .ok l)
    (htwo : 2 ≤ n) :
    ∃ first last, l.toArray[0]? = some first ∧ l.toArray[n - 1]? = some last := by
  have hsize : l.toArray.size = n := by
    rw [List.size_toArray]
    exact length_of_slotsFrom p h
  exact ⟨_, _, Array.getElem?_eq_getElem (by omega), Array.getElem?_eq_getElem (by omega)⟩

theorem inRange_directoryOf (h : IndexHeader) : InRange (directoryOf p h) := by
  unfold directoryOf
  refine .ite (fun _ => .damaged ..) fun _ => .ite (fun _ => .damaged ..) fun hdir => ?_
  refine .bind (inRange_slotsFrom ..) fun l hl => ?_
  obtain ⟨first, last, hfirst, hlast⟩ := exists_ends p hl (by omega)
  simp only [hfirst, hlast]
  exact .ite (fun _ => .ok _) fun _ => .damaged ..

theorem inRange_ofPage : InRange (ofPage p) := by
  unfold ofPage
  refine .ite (fun _ => .damaged ..) fun _ => ?_
  refine .bind (p.data.inRange_readFrom ..) fun header _ => ?_
  refine .ite (fun _ => .unsupported _) fun _ => ?_
  refine .bind (p.data.inRange_readFrom ..) fun segments _ => ?_
  refine .bind (inRange_bytesAt p (by decide)) fun infimum _ => ?_
  refine .ite (fun _ => .damaged ..) fun _ => ?_
  refine .bind (inRange_bytesAt p (by decide)) fun supremum _ => ?_
  refine .ite (fun _ => .damaged ..) fun _ => ?_
  exact .bind (inRange_directoryOf ..) fun slots _ => .ok _

end IndexPage

theorem ExtentPage.inRange_ofPage (p : Page) : InRange (ofPage p) := by
  have rest : ∀ header : Option SpaceHeader, InRange (do
      let extents ← p.data.readFrom arrayOffset (readExtents maxExtents)
      return ({ header, extents } : ExtentPage)) := by
    intro header
    exact .bind (p.data.inRange_readFrom ..) fun extents _ => .ok _
  unfold ofPage
  simp only
  split
  · exact .bind (.map (p.data.inRange_readFrom ..) _) fun header _ => rest header
  · exact .bind (.ok _) fun header _ => rest header
  · exact .bind (.damaged ..) fun header _ => rest header

namespace InodePage

theorem inRange_inodesFrom (p : Page) (slot n : Nat) : InRange (inodesFrom p slot n) := by
  induction n generalizing slot with
  | zero => exact .ok _
  | succ n ih =>
    rw [inodesFrom]
    refine .bind (p.data.inRange_readFrom ..) fun i _ => ?_
    refine .ite (fun _ => .ok _) fun _ => .ite (fun _ => ?_) fun _ => .damaged ..
    exact .bind (ih _) fun l _ => .ok _

theorem inRange_ofPage (p : Page) : InRange (ofPage p) := by
  unfold ofPage
  refine .bind (p.inRange_expect _) fun _ _ => ?_
  refine .bind (p.data.inRange_readFrom ..) fun node _ => ?_
  exact .bind (inRange_inodesFrom ..) fun inodes _ => .ok _

end InodePage

/-! ### Parts of long values -/

namespace BlobPart
variable {p : Page} {offset : Nat}

theorem inRange_ofPage (p : Page) (offset : Nat) : InRange (ofPage p offset) := by
  unfold ofPage
  refine .ite (fun _ => ?_) fun _ => ?_
  · exact .ite (fun _ => .unsupported _) fun _ => .damaged ..
  · refine .bind (p.data.inRange_readFrom ..) fun part _ => ?_
    exact .ite (fun _ => .damaged ..) fun _ => .ok _

/-- A part lies in the body of its page, so its bytes lie on the page. -/
theorem inRange_payload {b : BlobPart} (h : ofPage p offset = .ok b) : InRange (b.payload p) := by
  have hend : b.offset + BlobPart.headerSize + b.length ≤ bodyEnd := by
    unfold ofPage at h
    split at h
    · split at h
      · cases h
      · exact absurd h Page.damaged_ne_ok
    · obtain ⟨part, -, h⟩ := bind_eq_ok.mp h
      simp only at h
      split at h
      · exact absurd h Page.damaged_ne_ok
      · next hle =>
        cases h
        exact Nat.le_of_not_lt hle
  have hbody : bodyEnd ≤ p.data.size := by
    rw [p.size_data]
    decide
  rw [payload, if_pos (by omega)]
  exact .ok _

end BlobPart

namespace PageSource
variable {src : PageSource}

theorem inRange_partOf (hsrc : ∀ page, InRange (src page)) (page offset : Nat) :
    InRange (src.partOf page offset) := by
  unfold partOf
  refine .bind (hsrc page) fun p _ => .bind (BlobPart.inRange_ofPage ..) fun part hp => ?_
  refine .ite (fun _ => .corrupt ..) fun _ => ?_
  exact .bind (BlobPart.inRange_payload hp) fun l _ => .ok _

theorem inRange_externalFrom (hsrc : ∀ page, InRange (src page)) (total done : Nat)
    (visited : List Nat) (page offset : Nat) :
    InRange (src.externalFrom total done visited page offset) := by
  fun_induction externalFrom src total done visited page offset with
  | case1 => exact .ok _
  | case2 => exact .corrupt ..
  | case3 done visited page offset h hv e he =>
    exact .error ((inRange_partOf hsrc page offset).kind_ne e he)
  | case4 done visited page offset h hv part data hp shown next hn ih =>
    exact .bind ih fun l _ => .ok _
  | case5 => exact .ok _
  | case6 => exact .corrupt ..

end PageSource

theorem Page.inRange_decode (p : Page) : InRange p.decode := by
  unfold decode
  split
  · exact .map (ExtentPage.inRange_ofPage p) _
  · exact .map (ExtentPage.inRange_ofPage p) _
  · exact .map (InodePage.inRange_ofPage p) _
  · exact .map (IndexPage.inRange_ofPage p) _
  · exact .map (IndexPage.inRange_ofPage p) _
  · exact .map (BlobPart.inRange_ofPage ..) _
  · exact .map (BlobPart.inRange_ofPage ..) _
  · exact .ok _
  · exact .ok _

/-! ### Records -/

namespace Codec
variable {src : PageSource} {p : Page} {c : Codec}

theorem inRange_resolve (hsrc : ∀ page, InRange (src page)) (p : Page) (stored : List UInt8) :
    InRange (resolve src p stored) := by
  unfold resolve
  refine .ite (fun _ => .damaged ..) fun _ => ?_
  refine .bind (.ite (fun _ => .ok _) fun _ => .error (kind_read _)) fun ptr _ => ?_
  exact .bind (PageSource.inRange_externalFrom hsrc ..) fun tail _ => .ok _

theorem inRange_byteOf {i : Nat} (h : i < p.data.size) : InRange (byteOf p i) := by
  unfold byteOf
  rw [Buffer.get?_eq_some h]
  exact .ok _

/-- The bit of a field lies in the null bitmap, if that has room for it below the header. -/
theorem inRange_isNull {header bit : Nat} (hbit : bit / 8 + 1 ≤ header)
    (hheader : header ≤ p.data.size) : InRange (isNull p header bit) := by
  unfold isNull
  rw [if_neg (by omega)]
  exact .bind (inRange_byteOf (by omega)) fun b _ => .ok _

theorem inRange_lengthByte {h : Heads} (hh : h.lengths ≤ p.data.size) :
    InRange (lengthByte p h) := by
  unfold lengthByte
  split
  · exact .damaged ..
  · exact .bind (inRange_byteOf (by omega)) fun b _ => .ok _

theorem lengths_le_of_lengthByte {h h' : Heads} {b : Nat} (e : lengthByte p h = .ok (b, h')) :
    h'.lengths ≤ h.lengths := by
  unfold lengthByte at e
  split at e
  · exact absurd e Page.damaged_ne_ok
  · obtain ⟨b, -, e⟩ := bind_eq_ok.mp e
    cases e
    simp only
    omega

theorem inRange_fieldLength {f : Field} {h : Heads} (hh : h.lengths ≤ p.data.size) :
    InRange (fieldLength p f h) := by
  unfold fieldLength
  split
  · exact .ok _
  · refine .bind (inRange_lengthByte hh) fun first hfirst => ?_
    have hle := lengths_le_of_lengthByte hfirst
    refine .ite (fun _ => ?_) fun _ => .ok _
    exact .bind (inRange_lengthByte (by omega)) fun _ _ => .ok _

theorem lengths_le_of_fieldLength {f : Field} {h h' : Heads} {n : Nat} {external : Bool}
    (e : fieldLength p f h = .ok (n, external, h')) : h'.lengths ≤ h.lengths := by
  unfold fieldLength at e
  split at e
  · cases e
    exact Nat.le_refl _
  · obtain ⟨⟨b, h₁⟩, hb, e⟩ := bind_eq_ok.mp e
    have hle := lengths_le_of_lengthByte hb
    simp only at e
    split at e
    · obtain ⟨⟨b', h₂⟩, hb', e⟩ := bind_eq_ok.mp e
      have hle' := lengths_le_of_lengthByte hb'
      cases e
      exact hle'.trans hle
    · cases e
      exact hle

theorem inRange_readBody (h : Heads) (r : Read α) : InRange (readBody h r) := by
  unfold readBody
  exact .bind (.mapError kind_read _) fun a _ => .ok _

theorem lengths_of_readBody {h h' : Heads} {r : Read α} {a : α} (e : readBody h r = .ok (a, h')) :
    h'.lengths = h.lengths := by
  unfold readBody at e
  obtain ⟨⟨a, body⟩, -, e⟩ := bind_eq_ok.mp e
  cases e
  rfl

theorem inRange_readBytes (hsrc : ∀ page, InRange (src page)) {f : Field} {h : Heads}
    (hh : h.lengths ≤ p.data.size) : InRange (readBytes src p f h) := by
  unfold readBytes
  refine .bind (inRange_fieldLength hh) fun length _ => ?_
  refine .bind (inRange_readBody ..) fun stored _ => ?_
  refine .ite (fun _ => ?_) fun _ => ?_
  · exact .bind (inRange_resolve hsrc ..) fun bytes _ => .ok _
  · exact .bind (.ok _) fun bytes _ => .ok _

theorem lengths_le_of_readBytes {f : Field} {h h' : Heads} {bytes : List UInt8}
    (e : readBytes src p f h = .ok (bytes, h')) : h'.lengths ≤ h.lengths := by
  unfold readBytes at e
  obtain ⟨⟨n, external, h₁⟩, hn, e⟩ := bind_eq_ok.mp e
  obtain ⟨⟨stored, h₂⟩, hs, e⟩ := bind_eq_ok.mp e
  have hle : h₂.lengths ≤ h.lengths := by
    rw [lengths_of_readBody hs]
    exact lengths_le_of_fieldLength hn
  simp only at e
  split at e
  all_goals
    obtain ⟨_, -, e⟩ := bind_eq_ok.mp e
    cases e
    exact hle

/-- **A field is read in range**, if the lengths start on the page and the null bitmap has room for
the field below the header. -/
theorem inRange_readField (hsrc : ∀ page, InRange (src page)) {header : Nat} {f : Field} {h : Heads}
    (hheader : header ≤ p.data.size) (hbit : ∀ bit ∈ f.nullBit, bit / 8 + 1 ≤ header)
    (hh : h.lengths ≤ p.data.size) : InRange (c.readField src p header f h) := by
  have rest : ∀ null : Bool, InRange (if null then .ok (Value.null, h)
      else readBytes src p f h >>= fun x => .ok (c.decodeField f x.1, x.2)) := by
    intro null
    exact .ite (fun _ => .ok _) fun _ => .bind (inRange_readBytes hsrc hh) fun _ _ => .ok _
  unfold readField
  simp only
  split
  · next bit hb => exact .bind (inRange_isNull (hbit bit hb) hheader) fun null _ => rest null
  · exact .bind (.ok _) fun null _ => rest null

theorem lengths_le_of_readField {header : Nat} {f : Field} {h h' : Heads} {v : Value}
    (e : c.readField src p header f h = .ok (v, h')) : h'.lengths ≤ h.lengths := by
  have rest : ∀ null : Bool, (if null then .ok (Value.null, h)
      else readBytes src p f h >>= fun x => .ok (c.decodeField f x.1, x.2)) =
        (.ok (v, h') : Except Error _) → h'.lengths ≤ h.lengths := by
    intro null e
    split at e
    · cases e
      exact Nat.le_refl _
    · obtain ⟨⟨bytes, h₁⟩, hb, e⟩ := bind_eq_ok.mp e
      cases e
      exact lengths_le_of_readBytes hb
  unfold readField at e
  simp only at e
  split at e
  all_goals
    obtain ⟨null, -, e⟩ := bind_eq_ok.mp e
    exact rest null e

theorem inRange_readFields (hsrc : ∀ page, InRange (src page)) {header : Nat} {fs : List Field}
    {h : Heads} (hheader : header ≤ p.data.size)
    (hbits : ∀ f ∈ fs, ∀ bit ∈ f.nullBit, bit / 8 + 1 ≤ header) (hh : h.lengths ≤ p.data.size) :
    InRange (c.readFields src p header fs h) := by
  induction fs generalizing h with
  | nil => exact .ok _
  | cons f fs ih =>
    rw [readFields]
    have hf := inRange_readField (c := c) hsrc hheader (hbits f List.mem_cons_self) hh
    refine .bind hf fun value hv => ?_
    have hle := lengths_le_of_readField hv
    have hfs : ∀ g ∈ fs, ∀ bit ∈ g.nullBit, bit / 8 + 1 ≤ header :=
      fun g hg => hbits g (List.mem_cons_of_mem _ hg)
    exact .bind (ih hfs (by omega)) fun _ _ => .ok _

theorem lengths_le_of_readFields {header : Nat} {fs : List Field} {h h' : Heads} {vs : List Value}
    (e : c.readFields src p header fs h = .ok (vs, h')) : h'.lengths ≤ h.lengths := by
  induction fs generalizing h vs with
  | nil =>
    cases e
    exact Nat.le_refl _
  | cons f fs ih =>
    rw [readFields] at e
    obtain ⟨⟨v, h₁⟩, hv, e⟩ := bind_eq_ok.mp e
    obtain ⟨⟨vs', h₂⟩, hvs, e⟩ := bind_eq_ok.mp e
    cases e
    exact (ih hvs).trans (lengths_le_of_readField hv)

theorem inRange_readHeader (p : Page) (origin : Nat) : InRange (readHeader p origin) := by
  have hkind : ∀ e, (Error.corrupt p.number (.recordHeader origin e)).kind ≠ .stray := by
    intro e
    simp [Error.kind]
  unfold readHeader
  refine .bind (.mapError hkind _) fun header _ => ?_
  split
  · exact .bind (.ite (fun _ => .damaged ..) fun _ => .ok _) fun _ _ => .ok _
  · exact .ok _

/-- The header of a record lies on its page. -/
theorem origin_le_of_readHeader {origin : Nat} {header : RecordHeader}
    (e : readHeader p origin = .ok header) : origin - RecordHeader.size ≤ p.data.size := by
  unfold readHeader at e
  obtain ⟨header', he, -⟩ := bind_eq_ok.mp e
  unfold RecordHeader.at? Read.from? Cursor.at? at he
  split at he
  · cases he
  · by_cases hle : origin - RecordHeader.size ≤ p.data.size
    · exact hle
    · rw [if_neg hle] at he
      cases he

theorem inRange_readUser (hsrc : ∀ page, InRange (src page)) (hc : c.Sound) (leaf : Bool)
    (depth : Depth) {r : Record} (hr : r.origin - RecordHeader.size ≤ p.data.size) :
    InRange (c.readUser src p leaf depth r) := by
  unfold readUser
  refine .ite (fun _ => .damaged ..) fun hnull => ?_
  have hroom : c.layout.nullBytes ≤ r.origin - RecordHeader.size := Nat.le_of_not_lt hnull
  have hbits : ∀ f ∈ c.layout.keyFields ++ c.layout.valueFields, ∀ bit ∈ f.nullBit,
      bit / 8 + 1 ≤ r.origin - RecordHeader.size := by
    intro f hf bit hbit
    have hlt := hc.null f hf bit hbit
    unfold Layout.nullBytes at hroom
    omega
  have hkey : ∀ f ∈ c.layout.keyFields, ∀ bit ∈ f.nullBit,
      bit / 8 + 1 ≤ r.origin - RecordHeader.size :=
    fun f hf => hbits f (List.mem_append_left _ hf)
  have hvalue : ∀ f ∈ c.layout.valueFields, ∀ bit ∈ f.nullBit,
      bit / 8 + 1 ≤ r.origin - RecordHeader.size :=
    fun f hf => hbits f (List.mem_append_right _ hf)
  refine .bind (.mapError kind_read _) fun body _ => ?_
  refine .bind (inRange_readFields hsrc hr hkey (by simp only; omega)) fun key hk => ?_
  have hlengths := lengths_le_of_readFields hk
  simp only at hlengths
  refine .ite (fun _ => ?_) fun _ => .ite (fun _ => .ok _) fun _ => ?_
  · exact .bind (inRange_readBody ..) fun _ _ => .ok _
  · refine .bind (inRange_readBody ..) fun transaction ht => ?_
    refine .bind (inRange_readBody ..) fun roll hroll => ?_
    have hle : roll.2.lengths ≤ p.data.size := by
      rw [lengths_of_readBody hroll, lengths_of_readBody ht]
      omega
    exact .bind (inRange_readFields hsrc hr hvalue hle) fun _ _ => .ok _

/-- **A record is read in range**, whatever its page and its origin. -/
theorem inRange_read (hsrc : ∀ page, InRange (src page)) (hc : c.Sound) (p : Page) (leaf : Bool)
    (depth : Depth) (origin : Nat) : InRange (c.read src p leaf depth origin) := by
  unfold read
  refine .bind (inRange_readHeader ..) fun header hh => ?_
  have hr := origin_le_of_readHeader hh
  simp only
  split
  · exact .ok _
  · exact .ok _
  · exact inRange_readUser hsrc hc _ _ hr
  · exact inRange_readUser hsrc hc _ _ hr
  · exact .damaged ..

end Codec
end Tablespace
