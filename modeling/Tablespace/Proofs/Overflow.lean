import Mathlib.Computability.StateTransition
import Tablespace.Proofs.Encoding

/-! # Chains of overflow pages

The tail of a long value is cut into pieces, one a page, and each page names the next. Which bytes
a pointer stands for is said here by the pieces alone: those that the pages hold from the pointer
on, up to the one with the last byte. A chain may lead anywhere, back to a page of its own too.

* `Page.HoldsPiece`, `PageSource.Gives`: a page holds a piece, in terms of its bytes.
* `PageSource.Leads`: some pieces lead from a pointer to the place of the next one.
* `PageSource.Fills`: pieces on distinct pages that are just enough for a pointer.
  `PageSource.Breaks`: why there are none.
* `PageSource.turn`: one turn of the loop that assembles a value, which says of what pages it has
  loaded. `PageSource.exists_assembly`: the loop ends with what `PageSource.external` gives.
* `PageSource.external_gathers`: what it gives, and what it loads. -/

namespace Tablespace

open StateTransition Relation

/-! ### Pieces -/

/-- **A piece of a value**: where it lies, its bytes, and the page that it names as the next. -/
structure Piece where
  page : Nat
  offset : Nat
  data : List UInt8
  next : Option Nat

namespace Piece

/-- Where the piece after this one lies: at the start of the body of the next page. -/
def after (piece : Piece) : Option (Nat × Nat) := piece.next.map fun page => (page, headerSize)

/-- The bytes of some pieces, one piece after the other. -/
def joined (pieces : List Piece) : List UInt8 := pieces.flatMap Piece.data

theorem joined_snoc (pieces : List Piece) (piece : Piece) :
    joined (pieces ++ [piece]) = joined pieces ++ piece.data := by
  simp [joined]

theorem take_joined_snoc {pieces : List Piece} {total : Nat} (piece : Piece)
    (h : (joined pieces).length ≤ total) : (joined (pieces ++ [piece])).take total =
      joined pieces ++ piece.data.take (total - (joined pieces).length) := by
  rw [joined_snoc, List.take_append, List.take_of_length_le h]

/-- Pieces on distinct pages, and one more on another page. -/
theorem nodup_snoc {pieces : List Piece} {piece : Piece} :
    ((pieces ++ [piece]).map page).Nodup ↔
      (pieces.map page).Nodup ∧ piece.page ∉ pieces.map page := by
  rw [List.map_append, List.map_singleton, ← List.concat_eq_append, List.nodup_concat, and_comm]

end Piece

/-- **A page holds a piece**: it is a page for such pieces, and in its body stand, one after the
other, the number of bytes of the piece, the number of the next page, and the bytes. -/
structure Page.HoldsPiece (p : Page) (piece : Piece) : Prop where
  kind : p.kind = .blob ∨ p.kind = .dictionaryBlob
  fits : piece.offset + BlobPart.headerSize + piece.data.length ≤ bodyEnd
  length : p.data.uint piece.offset 4 = piece.data.length
  next : pageLink (p.data.uint (piece.offset + 4) 4) = piece.next
  data : p.data.bytes (piece.offset + BlobPart.headerSize) piece.data.length = piece.data
  filled : piece.data ≠ []

/-- A piece stands on the page of that number, which loads. -/
def PageSource.Gives (src : PageSource) (piece : Piece) : Prop :=
  ∃ p, src piece.page = .ok p ∧ p.HoldsPiece piece

/-! ### Parts are pieces -/

theorem Page.bodyEnd_le_size (p : Page) : bodyEnd ≤ p.data.size := by
  rw [p.size_data]
  decide

namespace BlobPart
variable {p : Page} {offset : Nat} {part : BlobPart}

theorem ofPage_eq_ok : ofPage p offset = .ok part ↔
    (p.kind = .blob ∨ p.kind = .dictionaryBlob) ∧ offset + headerSize + part.length ≤ bodyEnd ∧
      part = ⟨p.number, offset, p.data.uint offset 4, pageLink (p.data.uint (offset + 4) 4)⟩ := by
  unfold ofPage
  by_cases hkind : p.kind = .blob ∨ p.kind = .dictionaryBlob
  · rw [if_neg (by tauto)]
    simp only [bind_eq_ok, Buffer.readFrom_u32_u32]
    constructor
    · rintro ⟨_, ⟨-, rfl⟩, h⟩
      simp only at h
      split at h
      · exact absurd h Page.damaged_ne_ok
      · next hle =>
        cases h
        exact ⟨hkind, Nat.le_of_not_lt hle, rfl⟩
    · rintro ⟨-, hle, rfl⟩
      have hsize := p.bodyEnd_le_size
      have hheader : offset + 8 ≤ p.data.size := by
        simp only [headerSize] at hle
        omega
      exact ⟨_, ⟨hheader, rfl⟩, if_neg (Nat.not_lt_of_le hle)⟩
  · rw [if_pos (by tauto)]
    constructor
    · intro h
      split at h
      · cases h
      · exact absurd h Page.damaged_ne_ok
    · intro h
      exact absurd h.1 hkind

theorem payload_eq (h : part.offset + headerSize + part.length ≤ bodyEnd) :
    part.payload p = .ok (p.data.bytes (part.offset + headerSize) part.length) :=
  if_pos (h.trans p.bodyEnd_le_size)

end BlobPart

namespace PageSource
variable {src : PageSource}

theorem partOf_eq_ok {page offset : Nat} {part : BlobPart} {data : List UInt8} :
    src.partOf page offset = .ok (part, data) ↔ ∃ p, src page = .ok p ∧
      BlobPart.ofPage p offset = .ok part ∧ part.length ≠ 0 ∧ part.payload p = .ok data := by
  unfold partOf
  simp only [bind_eq_ok]
  refine exists_congr fun p => and_congr_right fun _ => ?_
  constructor
  · rintro ⟨b, hb, h⟩
    split at h
    · cases h
    · next hlen =>
      obtain ⟨l, hl, h⟩ := bind_eq_ok.mp h
      cases h
      exact ⟨hb, hlen, hl⟩
  · rintro ⟨hb, hlen, hl⟩
    refine ⟨part, hb, ?_⟩
    rw [if_neg hlen, hl]
    rfl

/-- **A part is a piece that its page holds.** -/
theorem gives_iff {piece : Piece} : src.Gives piece ↔ ∃ part,
    src.partOf piece.page piece.offset = .ok (part, piece.data) ∧ part.next = piece.next := by
  unfold Gives
  simp only [partOf_eq_ok, BlobPart.ofPage_eq_ok]
  constructor
  · rintro ⟨p, hp, h⟩
    have hfits := h.fits
    have hfilled : piece.data.length ≠ 0 := by simpa using h.filled
    have hdata := h.data
    rw [← h.length] at hfits hfilled hdata
    have hpayload : BlobPart.payload ⟨p.number, piece.offset, p.data.uint piece.offset 4,
        pageLink (p.data.uint (piece.offset + 4) 4)⟩ p = _ := BlobPart.payload_eq hfits
    rw [hdata] at hpayload
    exact ⟨_, ⟨p, hp, ⟨h.kind, hfits, rfl⟩, hfilled, hpayload⟩, h.next⟩
  · rintro ⟨part, ⟨p, hp, ⟨hkind, hfits, hpart⟩, hlen, hdata⟩, hnext⟩
    have hoffset : part.offset = piece.offset := by rw [hpart]
    have hlength := BlobPart.length_of_payload hdata
    rw [← hoffset] at hfits
    rw [BlobPart.payload_eq hfits] at hdata
    refine ⟨p, hp, hkind, ?_, ?_, ?_, ?_, ?_⟩
    · rwa [hlength, ← hoffset]
    · rw [hlength, hpart]
    · rw [← hnext, hpart]
    · rw [hlength, ← hoffset]
      exact Except.ok.inj hdata
    · rw [← List.length_pos_iff]
      omega

/-! ### Chains -/

/-- **Some pieces lead from a pointer to a place**: the first lies where the pointer says, each
other one at the start of the body of the page that the one before it names, and the place is
where the next one would lie. -/
inductive Leads (src : PageSource) (ptr : OverflowPointer) :
    List Piece → Option (Nat × Nat) → Prop
  | start : Leads src ptr [] (some (ptr.page, ptr.offset))
  | next {pieces : List Piece} {piece : Piece}
      (h : Leads src ptr pieces (some (piece.page, piece.offset))) (hp : src.Gives piece) :
      Leads src ptr (pieces ++ [piece]) piece.after

/-- **Some pieces fill a pointer**: they lie on distinct pages, and only with the last of them are
there as many bytes as the pointer counts. -/
structure Fills (src : PageSource) (ptr : OverflowPointer) (pieces : List Piece) : Prop where
  leads : ∃ place, src.Leads ptr pieces place
  distinct : (pieces.map Piece.page).Nodup
  nonempty : pieces ≠ []
  short : (Piece.joined pieces.dropLast).length < ptr.length
  enough : ptr.length ≤ (Piece.joined pieces).length

/-- **Some pieces fall short of a pointer**: they lie on distinct pages, and are not all. -/
structure FallsShort (src : PageSource) (ptr : OverflowPointer) (pieces : List Piece)
    (place : Option (Nat × Nat)) : Prop where
  leads : src.Leads ptr pieces place
  distinct : (pieces.map Piece.page).Nodup
  short : (Piece.joined pieces).length < ptr.length

/-- **A chain breaks** before there are enough bytes: it comes back to a page, it leads to what is
not a part, or it ends. -/
inductive Breaks (src : PageSource) (ptr : OverflowPointer) : Error → Prop
  | cycle {pieces : List Piece} {page offset : Nat}
      (h : src.FallsShort ptr pieces (some (page, offset))) (again : page ∈ pieces.map Piece.page) :
      Breaks src ptr (.corrupt page .blobCycle)
  | unread {pieces : List Piece} {page offset : Nat} {e : Error}
      (h : src.FallsShort ptr pieces (some (page, offset)))
      (fails : src.partOf page offset = .error e) : Breaks src ptr e
  | ends {pieces : List Piece} {piece : Piece} (h : src.FallsShort ptr (pieces ++ [piece]) none) :
      Breaks src ptr
        (.corrupt piece.page (.blobEnd (Piece.joined (pieces ++ [piece])).length ptr.length))

section Chains
variable {ptr : OverflowPointer} {pieces : List Piece} {place : Option (Nat × Nat)}

/-- The last of some pieces, and those before it. -/
theorem Leads.exists_last (h : src.Leads ptr pieces place) (hne : pieces ≠ []) :
    ∃ init last, pieces = init ++ [last] ∧ src.Leads ptr init (some (last.page, last.offset)) ∧
      src.Gives last ∧ place = last.after := by
  cases h with
  | start => exact absurd rfl hne
  | next h hp => exact ⟨_, _, rfl, h, hp, rfl⟩

/-- Pieces lead from a pointer in any source that has the same pages where they lie. -/
theorem Leads.congr {src' : PageSource} (h : src.Leads ptr pieces place)
    (hsame : ∀ piece ∈ pieces, src' piece.page = src piece.page) : src'.Leads ptr pieces place := by
  induction h with
  | start => exact .start
  | @next pieces piece h hp ih =>
    obtain ⟨p, hload, hholds⟩ := hp
    have hpiece := hsame piece (by simp)
    refine .next (ih fun other hother => hsame other ?_) ⟨p, hpiece.trans hload, hholds⟩
    exact List.mem_append_left _ hother

theorem Fills.congr {src' : PageSource} (h : src.Fills ptr pieces)
    (hsame : ∀ piece ∈ pieces, src' piece.page = src piece.page) : src'.Fills ptr pieces := by
  obtain ⟨place, hleads⟩ := h.leads
  exact { h with leads := ⟨place, hleads.congr hsame⟩ }

end Chains
end PageSource

/-! ### The loop -/

/-- **The stage of an assembly**: before the part at a place, or at its end. -/
inductive Assembly.Stage
  | reading (page offset : Nat)
  | ended (result : Except Error (List UInt8))

/-- **A value that is being assembled**: its bytes so far, and the pages that have been loaded,
the last one first. -/
structure Assembly where
  bytes : List UInt8
  loaded : List Nat
  stage : Assembly.Stage

namespace Assembly

/-- Before the first part. -/
def start (ptr : OverflowPointer) : Assembly := ⟨[], [], .reading ptr.page ptr.offset⟩

/-- The bytes of a part are added, up to the last one of the value. -/
def add (a : Assembly) (total page : Nat) (data : List UInt8) (next : Option Nat) : Assembly :=
  let bytes := a.bytes ++ data.take (total - a.bytes.length)
  { bytes
    loaded := page :: a.loaded
    stage :=
      match next with
      | some next => .reading next headerSize
      | none =>
        .ended (if total ≤ bytes.length then .ok bytes
          else .error (.corrupt page (.blobEnd bytes.length total))) }

end Assembly

namespace PageSource
variable {src : PageSource}

/-- **A turn of the loop that assembles a value.** -/
def turn (src : PageSource) (total : Nat) (a : Assembly) : Option Assembly :=
  match a.stage with
  | .ended _ => none
  | .reading page offset =>
    if total ≤ a.bytes.length then some { a with stage := .ended (.ok a.bytes) }
    else if page ∈ a.loaded then
      some { a with stage := .ended (.error (.corrupt page .blobCycle)) }
    else
      match src.partOf page offset with
      | .error e => some { a with loaded := page :: a.loaded, stage := .ended (.error e) }
      | .ok (part, data) => some (a.add total page data part.next)

/-- **What a turn does**: it ends with all bytes, it ends at a page that has been loaded, it ends
at what is not a part, or it adds a part. -/
theorem turn_cases {total : Nat} {a b : Assembly} (h : src.turn total a = some b) :
    ∃ page offset, a.stage = .reading page offset ∧
      ((total ≤ a.bytes.length ∧ b = { a with stage := .ended (.ok a.bytes) }) ∨
        ¬ total ≤ a.bytes.length ∧
          ((page ∈ a.loaded ∧ b = { a with stage := .ended (.error (.corrupt page .blobCycle)) }) ∨
            page ∉ a.loaded ∧
              ((∃ e, src.partOf page offset = .error e ∧
                  b = { a with loaded := page :: a.loaded, stage := .ended (.error e) }) ∨
                ∃ part data, src.partOf page offset = .ok (part, data) ∧
                  b = a.add total page data part.next))) := by
  unfold turn at h
  split at h
  · cases h
  · next page offset hstage =>
    refine ⟨page, offset, hstage, ?_⟩
    split at h
    · next hle =>
      cases h
      exact .inl ⟨hle, rfl⟩
    · next hlt =>
      refine .inr ⟨hlt, ?_⟩
      split at h
      · next hmem =>
        cases h
        exact .inl ⟨hmem, rfl⟩
      · next hnew =>
        refine .inr ⟨hnew, ?_⟩
        split at h
        · next e he =>
          cases h
          exact .inl ⟨e, he, rfl⟩
        · next part data hp =>
          cases h
          exact .inr ⟨part, data, hp, rfl⟩

section Turns
variable {total page offset : Nat} {a b : Assembly}

theorem turn_of_le (hstage : a.stage = .reading page offset) (h : total ≤ a.bytes.length) :
    src.turn total a = some { a with stage := .ended (.ok a.bytes) } := by
  simp only [turn, hstage, if_pos h]

theorem turn_of_part {part : BlobPart} {data : List UInt8} (hstage : a.stage = .reading page offset)
    (h : ¬ total ≤ a.bytes.length) (hnew : page ∉ a.loaded)
    (hp : src.partOf page offset = .ok (part, data)) :
    src.turn total a = some (a.add total page data part.next) := by
  simp only [turn, hstage, if_neg h, if_neg hnew, hp]

/-- A loop that ends with its next turn. -/
theorem mem_eval_of_turn {result : Except Error (List UInt8)} (h : src.turn total a = some b)
    (hb : b.stage = .ended result) : b ∈ eval (src.turn total) a := by
  have hend : src.turn total b = none := by simp only [turn, hb]
  exact mem_eval.mpr ⟨.single h, hend⟩

/-- The loop ends with the bytes before it and those that are still to come. -/
theorem exists_assembly_from {loaded : List Nat} (bytes : List UInt8) (done : Nat)
    (hdone : bytes.length = done) :
    ∃ a ∈ eval (src.turn total) ⟨bytes, loaded, .reading page offset⟩,
      a.stage = .ended ((src.externalFrom total done loaded page offset).map (bytes ++ ·)) := by
  fun_induction externalFrom src total done loaded page offset generalizing bytes with
  | case1 done loaded page offset h =>
    have hle : total ≤ bytes.length := by omega
    refine ⟨_, mem_eval_of_turn (turn_of_le rfl hle) rfl, ?_⟩
    simp [Except.map]
  | case2 done loaded page offset h hv =>
    have hturn : src.turn total ⟨bytes, loaded, .reading page offset⟩ =
        some ⟨bytes, loaded, .ended (.error (.corrupt page .blobCycle))⟩ := by
      simp only [turn, hdone, if_neg h, if_pos hv]
    exact ⟨_, mem_eval_of_turn hturn rfl, rfl⟩
  | case3 done loaded page offset h hv e he =>
    have hturn : src.turn total ⟨bytes, loaded, .reading page offset⟩ =
        some ⟨bytes, page :: loaded, .ended (.error e)⟩ := by
      simp only [turn, hdone, if_neg h, if_neg hv, he]
    exact ⟨_, mem_eval_of_turn hturn rfl, rfl⟩
  | case4 done loaded page offset h hv part data hp shown next hn ih =>
    subst hdone
    have hturn := turn_of_part (a := ⟨bytes, loaded, .reading page offset⟩) rfl h hv hp
    rw [hn] at hturn
    obtain ⟨a, ha, hstage⟩ := ih (bytes ++ shown) List.length_append
    rw [reaches_eval (.single hturn)]
    refine ⟨a, ha, hstage.trans ?_⟩
    cases src.externalFrom total (bytes.length + shown.length) (page :: loaded) next headerSize with
    | error e => rfl
    | ok rest => simp [Except.map, bind, Except.bind, pure, Except.pure]
  | case5 done loaded page offset h hv part data hp shown hn hle =>
    subst hdone
    have hturn := turn_of_part (a := ⟨bytes, loaded, .reading page offset⟩) rfl h hv hp
    rw [hn] at hturn
    rw [← List.length_append] at hle
    exact ⟨_, mem_eval_of_turn hturn rfl, congrArg Assembly.Stage.ended (if_pos hle)⟩
  | case6 done loaded page offset h hv part data hp shown hn hle =>
    subst hdone
    have hturn := turn_of_part (a := ⟨bytes, loaded, .reading page offset⟩) rfl h hv hp
    rw [hn] at hturn
    rw [← List.length_append] at hle ⊢
    exact ⟨_, mem_eval_of_turn hturn rfl, congrArg Assembly.Stage.ended (if_neg hle)⟩

end Turns

/-- **The loop ends**, whatever the pages hold, with what a pointer stands for. -/
theorem exists_assembly (src : PageSource) (ptr : OverflowPointer) :
    ∃ a ∈ eval (src.turn ptr.length) (.start ptr), a.stage = .ended (src.external ptr) := by
  obtain ⟨a, ha, hstage⟩ : ∃ a ∈ eval (src.turn ptr.length) (.start ptr), a.stage =
      .ended ((src.externalFrom ptr.length 0 [] ptr.page ptr.offset).map ([] ++ ·)) :=
    exists_assembly_from [] 0 rfl
  refine ⟨a, ha, hstage.trans ?_⟩
  unfold external
  cases src.externalFrom ptr.length 0 [] ptr.page ptr.offset <;> simp [Except.map]

end PageSource

/-! ### What the loop has collected -/

namespace Assembly

/-- **What an assembly has collected**: the bytes of some pieces, up to the last one of the value,
from pages that have been loaded in the order of the pieces. -/
structure Collects (a : Assembly) (src : PageSource) (ptr : OverflowPointer) (pieces : List Piece)
    (place : Option (Nat × Nat)) : Prop where
  leads : src.Leads ptr pieces place
  distinct : (pieces.map Piece.page).Nodup
  short : pieces ≠ [] → (Piece.joined pieces.dropLast).length < ptr.length
  bytes : a.bytes = (Piece.joined pieces).take ptr.length
  loaded : a.loaded.reverse = pieces.map Piece.page

/-- **What is true of an assembly at its stage**: what it has collected, and at its end why. -/
def Sound (src : PageSource) (ptr : OverflowPointer) (a : Assembly) : Prop :=
  match a.stage with
  | .reading page offset => ∃ pieces, a.Collects src ptr pieces (some (page, offset))
  | .ended (.ok v) =>
    v = a.bytes ∧ ptr.length ≤ v.length ∧ ∃ pieces place, a.Collects src ptr pieces place
  | .ended (.error e) => src.Breaks ptr e

variable {src : PageSource} {ptr : OverflowPointer} {a b : Assembly} {pieces : List Piece}
  {piece : Piece} {place : Option (Nat × Nat)} {page : Nat}

theorem collects_start (src : PageSource) (ptr : OverflowPointer) :
    (start ptr).Collects src ptr [] (some (ptr.page, ptr.offset)) :=
  ⟨.start, List.nodup_nil, fun h => absurd rfl h, List.take_nil.symm, rfl⟩

namespace Collects

theorem le_iff (h : a.Collects src ptr pieces place) :
    ptr.length ≤ a.bytes.length ↔ ptr.length ≤ (Piece.joined pieces).length := by
  rw [h.bytes, List.length_take]
  omega

theorem mem_loaded_iff (h : a.Collects src ptr pieces place) :
    page ∈ a.loaded ↔ page ∈ pieces.map Piece.page := by
  rw [← h.loaded, List.mem_reverse]

theorem fallsShort (h : a.Collects src ptr pieces place) (hlt : ¬ ptr.length ≤ a.bytes.length) :
    src.FallsShort ptr pieces place :=
  ⟨h.leads, h.distinct, Nat.lt_of_not_le fun hle => hlt (h.le_iff.mpr hle)⟩

/-- Before the last byte of the value, no byte of the pieces has been left out. -/
theorem bytes_eq (h : a.Collects src ptr pieces place) (hlt : ¬ ptr.length ≤ a.bytes.length) :
    a.bytes = Piece.joined pieces := by
  rw [h.bytes, List.take_of_length_le (h.fallsShort hlt).short.le]

/-- **A piece that is added** has been collected too. -/
theorem add (h : a.Collects src ptr pieces (some (piece.page, piece.offset)))
    (hlt : ¬ ptr.length ≤ a.bytes.length) (hnew : piece.page ∉ a.loaded) (hp : src.Gives piece) :
    (a.add ptr.length piece.page piece.data piece.next).Collects src ptr (pieces ++ [piece])
      piece.after := by
  have hshort := (h.fallsShort hlt).short
  have hfresh : piece.page ∉ pieces.map Piece.page := fun hmem => hnew (h.mem_loaded_iff.mpr hmem)
  refine ⟨.next h.leads hp, Piece.nodup_snoc.mpr ⟨h.distinct, hfresh⟩, fun _ => ?_, ?_, ?_⟩
  · rwa [List.dropLast_concat]
  · rw [Piece.take_joined_snoc _ hshort.le, ← h.bytes_eq hlt]
    rfl
  · rw [List.map_append, List.map_singleton, ← h.loaded]
    exact List.reverse_cons

/-- An assembly with one more piece goes on, or is at its end. -/
theorem sound_add (h : a.Collects src ptr pieces (some (piece.page, piece.offset)))
    (hlt : ¬ ptr.length ≤ a.bytes.length) (hnew : piece.page ∉ a.loaded) (hp : src.Gives piece) :
    (a.add ptr.length piece.page piece.data piece.next).Sound src ptr := by
  have hadd := h.add hlt hnew hp
  obtain ⟨page, offset, data, next⟩ := piece
  cases next with
  | some next => exact ⟨_, hadd⟩
  | none =>
    by_cases hle : ptr.length ≤ (a.add ptr.length page data none).bytes.length
    · have hstage : (a.add ptr.length page data none).stage =
          .ended (.ok (a.add ptr.length page data none).bytes) :=
        congrArg Stage.ended (if_pos hle)
      unfold Sound
      rw [hstage]
      exact ⟨rfl, hle, _, _, hadd⟩
    · have hstage : (a.add ptr.length page data none).stage =
          .ended (.error (.corrupt page
            (.blobEnd (a.add ptr.length page data none).bytes.length ptr.length))) :=
        congrArg Stage.ended (if_neg hle)
      unfold Sound
      rw [hstage, hadd.bytes_eq hle]
      exact .ends (hadd.fallsShort hle)

end Collects

/-- **One turn keeps what is true of an assembly.** -/
theorem Sound.turn (h : a.Sound src ptr) (hturn : src.turn ptr.length a = some b) :
    b.Sound src ptr := by
  obtain ⟨page, offset, hstage, hcases⟩ := PageSource.turn_cases hturn
  unfold Sound at h
  rw [hstage] at h
  obtain ⟨pieces, hc⟩ := h
  rcases hcases with ⟨hle, rfl⟩ | ⟨hlt, ⟨hmem, rfl⟩ | ⟨hnew, ⟨e, he, rfl⟩ | ⟨part, data, hp, rfl⟩⟩⟩
  · exact ⟨rfl, hle, pieces, _, ⟨hc.leads, hc.distinct, hc.short, hc.bytes, hc.loaded⟩⟩
  · exact .cycle (hc.fallsShort hlt) (hc.mem_loaded_iff.mp hmem)
  · exact .unread (hc.fallsShort hlt) he
  · have hgives : src.Gives ⟨page, offset, data, part.next⟩ :=
      PageSource.gives_iff.mpr ⟨part, hp, rfl⟩
    exact hc.sound_add hlt hnew hgives

/-- **What is true of every assembly that the loop comes to.** -/
theorem sound_of_reaches (h : Reaches (src.turn ptr.length) (start ptr) a) : a.Sound src ptr := by
  induction h with
  | refl => exact ⟨[], collects_start src ptr⟩
  | tail _ hturn ih => exact ih.turn hturn

/-- What has been collected at the end of a value fills the pointer, unless there was nothing to
collect. -/
theorem Collects.nil_or_fills (h : a.Collects src ptr pieces place)
    (henough : ptr.length ≤ a.bytes.length) :
    (ptr.length = 0 ∧ a.bytes = []) ∨ src.Fills ptr pieces := by
  by_cases hne : pieces = []
  · subst hne
    have hbytes : a.bytes = [] := h.bytes.trans List.take_nil
    rw [hbytes, List.length_nil] at henough
    exact .inl ⟨by omega, hbytes⟩
  · exact .inr ⟨⟨place, h.leads⟩, h.distinct, hne, h.short hne, h.le_iff.mp henough⟩

/-- **The next piece is collected** in one turn. -/
theorem Collects.turn (h : a.Collects src ptr pieces (some (piece.page, piece.offset)))
    (hstage : a.stage = .reading piece.page piece.offset)
    (hshort : (Piece.joined pieces).length < ptr.length)
    (hnew : piece.page ∉ pieces.map Piece.page) (hp : src.Gives piece) :
    src.turn ptr.length a = some (a.add ptr.length piece.page piece.data piece.next) ∧
      (a.add ptr.length piece.page piece.data piece.next).Collects src ptr (pieces ++ [piece])
        piece.after := by
  have hlt : ¬ ptr.length ≤ a.bytes.length := fun hle => by
    have := h.le_iff.mp hle
    omega
  have hfresh : piece.page ∉ a.loaded := fun hmem => hnew (h.mem_loaded_iff.mp hmem)
  obtain ⟨part, hpart, hnext⟩ := PageSource.gives_iff.mp hp
  have hturn := PageSource.turn_of_part hstage hlt hfresh hpart
  rw [hnext] at hturn
  exact ⟨hturn, h.add hlt hfresh hp⟩

end Assembly

/-! ### What the loop comes to -/

namespace PageSource
variable {src : PageSource} {ptr : OverflowPointer} {pieces : List Piece} {page offset : Nat}

/-- The loop collects any pieces that fall short, and comes to the place that they lead to. -/
theorem FallsShort.reaches {place : Option (Nat × Nat)} (h : src.FallsShort ptr pieces place)
    (hplace : place = some (page, offset)) :
    ∃ a, Reaches (src.turn ptr.length) (.start ptr) a ∧ a.stage = .reading page offset ∧
      a.Collects src ptr pieces place := by
  obtain ⟨hleads, hdistinct, hshort⟩ := h
  induction hleads generalizing page offset with
  | start =>
    cases hplace
    exact ⟨_, .refl, rfl, Assembly.collects_start src ptr⟩
  | @next pieces piece hleads hp ih =>
    obtain ⟨hnext, rfl⟩ : piece.next = some page ∧ headerSize = offset := by
      simpa [Piece.after] using hplace
    obtain ⟨hbefore, hnew⟩ := Piece.nodup_snoc.mp hdistinct
    have hless : (Piece.joined pieces).length < ptr.length := by
      rw [Piece.joined_snoc, List.length_append] at hshort
      omega
    obtain ⟨a, hreach, hstage, hc⟩ := ih rfl hbefore hless
    obtain ⟨hturn, hadd⟩ := hc.turn hstage hless hnew hp
    refine ⟨_, hreach.tail hturn, ?_, hadd⟩
    simp only [Assembly.add, hnext]

/-- **Pieces that fill a pointer are what the loop collects**, and it ends with them. -/
theorem Fills.exists_assembly (h : src.Fills ptr pieces) :
    ∃ a ∈ eval (src.turn ptr.length) (.start ptr), a.stage = .ended (.ok a.bytes) ∧
      a.bytes = (Piece.joined pieces).take ptr.length ∧
      a.loaded.reverse = pieces.map Piece.page := by
  obtain ⟨place, hleads⟩ := h.leads
  obtain ⟨init, last, rfl, hinit, hlast, -⟩ := hleads.exists_last h.nonempty
  obtain ⟨hbefore, hnew⟩ := Piece.nodup_snoc.mp h.distinct
  have hshort := h.short
  rw [List.dropLast_concat] at hshort
  obtain ⟨a, hreach, hstage, hc⟩ := FallsShort.reaches ⟨hinit, hbefore, hshort⟩ rfl
  obtain ⟨hturn, hadd⟩ := hc.turn hstage hshort hnew hlast
  have henough := hadd.le_iff.mpr h.enough
  rw [reaches_eval hreach]
  cases hnext : last.next with
  | none =>
    rw [hnext] at hturn hadd henough
    have hended : (a.add ptr.length last.page last.data none).stage =
        .ended (.ok (a.add ptr.length last.page last.data none).bytes) :=
      congrArg Assembly.Stage.ended (if_pos henough)
    exact ⟨_, mem_eval_of_turn hturn hended, hended, hadd.bytes, hadd.loaded⟩
  -- a next page is named, but the loop does not go there
  | some next =>
    rw [hnext] at hturn hadd henough
    rw [reaches_eval (.single hturn)]
    exact ⟨_, mem_eval_of_turn (turn_of_le rfl henough) rfl, rfl, hadd.bytes, hadd.loaded⟩

/-! ### What a pointer stands for -/

theorem Fills.external_eq (h : src.Fills ptr pieces) :
    src.external ptr = .ok ((Piece.joined pieces).take ptr.length) := by
  obtain ⟨a, ha, hstage⟩ := PageSource.exists_assembly src ptr
  obtain ⟨b, hb, hended, hbytes, -⟩ := h.exists_assembly
  rw [Part.mem_unique ha hb, hended, hbytes] at hstage
  exact (Assembly.Stage.ended.inj hstage).symm

/-- **The bytes that a pointer stands for**: none, or those of the pieces that fill it. -/
theorem external_eq_ok {v : List UInt8} : src.external ptr = .ok v ↔
    (ptr.length = 0 ∧ v = []) ∨
      ∃ pieces, src.Fills ptr pieces ∧ v = (Piece.joined pieces).take ptr.length := by
  constructor
  · intro h
    obtain ⟨a, ha, hstage⟩ := exists_assembly src ptr
    have hsound := Assembly.sound_of_reaches (mem_eval.mp ha).1
    unfold Assembly.Sound at hsound
    rw [hstage, h] at hsound
    obtain ⟨rfl, henough, pieces, place, hc⟩ := hsound
    rcases hc.nil_or_fills henough with hnil | hfills
    · exact .inl hnil
    · exact .inr ⟨pieces, hfills, hc.bytes⟩
  · rintro (⟨hzero, rfl⟩ | ⟨pieces, hfills, rfl⟩)
    · unfold external externalFrom
      rw [if_pos (by omega)]
    · exact hfills.external_eq

/-- **Why there are none**: the chain breaks. -/
theorem breaks_of_error {e : Error} (h : src.external ptr = .error e) : src.Breaks ptr e := by
  obtain ⟨a, ha, hstage⟩ := exists_assembly src ptr
  have hsound := Assembly.sound_of_reaches (mem_eval.mp ha).1
  unfold Assembly.Sound at hsound
  rwa [hstage, h] at hsound

/-- **What a pointer stands for**, in any source of pages. There are bytes if the pointer counts
none, or if pieces fill it: the bytes of these, up to the last one counted. In all other cases
there is a failure, since the chain breaks. The loop comes to its end, without a page if there is
nothing to load, and else with the pages of the pieces that fill the pointer and no page after
them; nor would it matter what any other page holds. -/
theorem external_gathers (src : PageSource) (ptr : OverflowPointer) :
    (∀ v, src.external ptr = .ok v ↔ (ptr.length = 0 ∧ v = []) ∨
      ∃ pieces, src.Fills ptr pieces ∧ v = (Piece.joined pieces).take ptr.length) ∧
    (ptr.length ≠ 0 → (¬ ∃ pieces, src.Fills ptr pieces) →
      ∃ e, src.external ptr = .error e ∧ src.Breaks ptr e) ∧
    (∃ a ∈ eval (src.turn ptr.length) (.start ptr), a.stage = .ended (src.external ptr) ∧
      (ptr.length = 0 → a.loaded = []) ∧
      ∀ pieces, src.Fills ptr pieces → a.loaded.reverse = pieces.map Piece.page) ∧
    ∀ pieces, src.Fills ptr pieces → ∀ src' : PageSource,
      (∀ piece ∈ pieces, src' piece.page = src piece.page) →
        src'.external ptr = src.external ptr := by
  refine ⟨fun v => external_eq_ok, fun hne hnone => ?_, ?_, fun pieces hfills src' hsame => ?_⟩
  · cases h : src.external ptr with
    | error e => exact ⟨e, rfl, breaks_of_error h⟩
    | ok v =>
      rcases external_eq_ok.mp h with ⟨hzero, -⟩ | ⟨pieces, hfills, -⟩
      · exact absurd hzero hne
      · exact absurd ⟨pieces, hfills⟩ hnone
  · obtain ⟨a, ha, hstage⟩ := exists_assembly src ptr
    refine ⟨a, ha, hstage, fun hzero => ?_, fun pieces hfills => ?_⟩
    · have hturn : src.turn ptr.length (.start ptr) = some ⟨[], [], .ended (.ok [])⟩ :=
        turn_of_le rfl (by rw [hzero]; exact Nat.zero_le _)
      rw [Part.mem_unique ha (mem_eval_of_turn hturn rfl)]
    · obtain ⟨b, hb, -, -, hloaded⟩ := hfills.exists_assembly
      rw [Part.mem_unique ha hb, hloaded]
  · rw [(hfills.congr hsame).external_eq, hfills.external_eq]

namespace Circle

/-- Page 5 holds three bytes and names page 6, which holds three more and names page 5. -/
def source : PageSource
  | 5 => .ok (StoredNote.pageOf 5 .blob 40 [0, 0, 0, 3, 0, 0, 0, 6, 1, 2, 3])
  | 6 => .ok (StoredNote.pageOf 6 .blob headerSize [0, 0, 0, 3, 0, 0, 0, 5, 4, 5, 6])
  | n => .error (.argument (.pageNumber n 7))

def pointer (length : Nat) : OverflowPointer :=
  { spaceId := 0, page := 5, offset := 40, length, owner := true, inherited := false }

def parts : List Piece := [⟨5, 40, [1, 2, 3], some 6⟩, ⟨6, headerSize, [4, 5, 6], some 5⟩]

theorem fills : source.Fills (pointer 5) parts where
  leads := by
    have h5 : source.Gives ⟨5, 40, [1, 2, 3], some 6⟩ :=
      ⟨_, rfl, .inl rfl, by decide, by decide +kernel, by decide +kernel, by decide +kernel,
        by decide⟩
    have h6 : source.Gives ⟨6, headerSize, [4, 5, 6], some 5⟩ :=
      ⟨_, rfl, .inl rfl, by decide, by decide +kernel, by decide +kernel, by decide +kernel,
        by decide⟩
    have hstart : source.Leads (pointer 5) [] (some (5, 40)) := .start
    have hfirst := hstart.next h5
    exact ⟨_, hfirst.next h6⟩
  distinct := by decide
  nonempty := by decide
  short := by decide
  enough := by decide

end Circle

/-- The last byte of page 6 is left out, and nobody notices that page 5 would be next. -/
theorem external_gathers_circle : Circle.source.Fills (Circle.pointer 5) Circle.parts ∧
    Circle.source.external (Circle.pointer 5) = .ok [1, 2, 3, 4, 5] ∧
    ∃ a ∈ eval (Circle.source.turn 5) (.start (Circle.pointer 5)), a.loaded.reverse = [5, 6] := by
  obtain ⟨hvalue, -, ⟨a, ha, -, -, hloaded⟩, -⟩ :=
    external_gathers Circle.source (Circle.pointer 5)
  refine ⟨Circle.fills, (hvalue _).mpr (.inr ⟨_, Circle.fills, by decide⟩), a, ha, ?_⟩
  exact hloaded _ Circle.fills

/-- With one byte more than both pages have, the circle is found out. -/
example : Circle.source.external (Circle.pointer 7) = .error (.corrupt 5 .blobCycle) := by
  cbv

end PageSource
end Tablespace
