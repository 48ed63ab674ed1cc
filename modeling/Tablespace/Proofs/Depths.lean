import Tablespace.Proofs.ChainWalk

/-! # The two depths of a record

A search decodes records up to their keys, and a scan decodes them whole. Both begin alike: with the
header, the null bitmap and the key. Whatever fails on the way to the key fails both, with the same
error, and a whole record has the header, the key and the next origin that the search has seen. On
internal pages there is nothing else to decode.

* `Codec.readKey`, `Codec.readRest`: a user record up to its key, and what follows it.
* `Codec.readUser_eq_bind`: the two make up a user record.
* `Codec.error_of_read_key`, `Codec.read_internal`: where the depths fail alike, and where they do
  not differ.
* `Codec.depths_agree`: all of this for any record of any page. -/

namespace Tablespace.Codec
variable {c : Codec} {src : PageSource} {p : Page}

/-! ### User records -/

/-- **The key of a user record**, and where the decoding stands behind it. -/
def readKey (c : Codec) (src : PageSource) (p : Page) (r : Record) :
    Except Error (List Value × Heads) :=
  let header := r.origin - RecordHeader.size
  if header < c.layout.nullBytes then p.damaged (.nullBitmap r.origin)
  else do
    let body ← (Cursor.at? p.data r.origin).mapError .read
    c.readFields src p header c.layout.keyFields { lengths := header - c.layout.nullBytes, body }

/-- **What follows the key of a user record**: the child of a node pointer, and of a row the hidden
fields and the values, unless it is decoded up to its key. -/
def readRest (c : Codec) (src : PageSource) (p : Page) (leaf : Bool) (depth : Depth) (r : Record)
    (key : List Value) (h : Heads) : Except Error Record :=
  if !leaf then do
    let (child, _) ← readBody h Read.u32
    return { r with key, child := some child }
  else if depth = .key then return { r with key }
  else do
    let (transactionId, h) ← readBody h Read.u48
    let (rollPointer, h) ← readBody h (Read.uint rollPointerBytes)
    let (values, _) ← c.readFields src p (r.origin - RecordHeader.size) c.layout.valueFields h
    return { r with
      key
      values := c.arrange key values
      transactionId := some transactionId
      rollPointer := some rollPointer }

/-- **A user record is its key and what follows.** -/
theorem readUser_eq_bind (leaf : Bool) (depth : Depth) (r : Record) :
    c.readUser src p leaf depth r =
      c.readKey src p r >>= fun x => c.readRest src p leaf depth r x.1 x.2 := by
  unfold readUser readKey
  simp only
  split
  · rfl
  · rw [bind_assoc]
    rfl

/-- A user record up to its key fails only where the key does, and so does the whole record. -/
theorem error_of_readUser_key {r : Record} {e : Error}
    (h : c.readUser src p true .key r = .error e) : c.readUser src p true .full r = .error e := by
  rw [readUser_eq_bind] at h ⊢
  cases hkey : c.readKey src p r with
  | error e' =>
    rw [hkey] at h
    cases h
    rfl
  | ok x =>
    rw [hkey] at h
    cases h

/-- Node pointers have nothing behind the child. -/
theorem readUser_internal (depth depth' : Depth) (r : Record) :
    c.readUser src p false depth r = c.readUser src p false depth' r := by
  rw [readUser_eq_bind, readUser_eq_bind]
  rfl

/-! ### Records -/

/-- **A record without a header** fails at any depth, and says what the header on its own would. -/
theorem read_of_header_error {origin : Nat} {e : HeaderError}
    (h : RecordHeader.at? p.data origin = .error e) (leaf : Bool) (depth : Depth) :
    ∃ error, c.read src p leaf depth origin = .error error ∧ error.kind = .corrupt ∧
      error.message = "Corrupt page " ++ toString p.number ++ ": " ++
        ("record at " ++ toString origin ++ ": " ++ e.toError.message) := by
  have hheader : readHeader p origin = .error (.corrupt p.number (.recordHeader origin e)) := by
    rw [readHeader, h]
    rfl
  refine ⟨.corrupt p.number (.recordHeader origin e), ?_, rfl, ?_⟩
  · rw [read, hheader]
    rfl
  · rw [HeaderError.message_toError]
    rfl

/-- **What fails up to the key fails as a whole**, with the same error. -/
theorem error_of_read_key {origin : Nat} {e : Error}
    (h : c.read src p true .key origin = .error e) : c.read src p true .full origin = .error e := by
  unfold read at h ⊢
  cases hheader : readHeader p origin with
  | error e' =>
    rw [hheader] at h
    cases h
    rfl
  | ok header =>
    simp only [hheader, bind, Except.bind] at h ⊢
    cases hs : header.status with
    | infimum | supremum =>
      rw [hs] at h
      cases h
    | ordinary =>
      rw [hs] at h
      exact error_of_readUser_key h
    | nodePointer =>
      rw [hs] at h
      exact h

/-- **On an internal page the depths do not differ.** -/
theorem read_internal (origin : Nat) (depth depth' : Depth) :
    c.read src p false depth origin = c.read src p false depth' origin := by
  unfold read
  simp only [readUser_internal depth depth']

/-- **The two depths of a record agree**, whatever the page holds. A row that is decoded whole is
decoded up to its key with the same key, header and next origin; what fails up to its key fails as a
whole with the same error; on internal pages the depths do not differ. Either way a record that is
no supremum leads on, past the infimum and into the body of the page. -/
theorem depths_agree (c : Codec) (src : PageSource) (p : Page) (origin : Nat) :
    (∀ r, c.read src p true .full origin = .ok r → ∃ k, c.read src p true .key origin = .ok k ∧
      k = { r with values := [], transactionId := none, rollPointer := none } ∧
      k.key = r.key ∧ k.header = r.header ∧ k.nextOrigin? = r.nextOrigin?) ∧
    (∀ e, c.read src p true .key origin = .error e → c.read src p true .full origin = .error e) ∧
    c.read src p false .full origin = c.read src p false .key origin ∧
    ∀ leaf depth r, c.read src p leaf depth origin = .ok r → ¬ r.isSupremum →
      ∃ next, r.nextOrigin? = some next ∧ 112 ≤ next ∧ next < 16376 := by
  refine ⟨fun r hr => ⟨r.keyPart, read_key_of_read hr, rfl, rfl, rfl, rfl⟩,
    fun e he => error_of_read_key he, read_internal origin .full .key, fun leaf depth r hr hs => ?_⟩
  exact nextOrigin?_of_read hr hs

/-- The first row of the tree of two leaves, whole and up to its key, and an origin before which
there is no room for a header. -/
theorem depths_agree_left :
    (let r := TwoLeaves.row 4 125 2 22 1
      let read := TwoLeaves.reader.codec.read TwoLeaves.reader.source TwoLeaves.left.node.page true
      read .full 125 = .ok r ∧
        (∃ k, read .key 125 = .ok k ∧ k.key = [.int 1] ∧ k.values = []) ∧
        (∃ next, r.nextOrigin? = some next ∧ 112 ≤ next ∧ next < 16376) ∧
        read .full 3 = .error (.corrupt 4 (.recordHeader 3 (.outOfBounds 3 5 pageSize)))) := by
  obtain ⟨hfull, -, -, hnext⟩ := depths_agree TwoLeaves.reader.codec TwoLeaves.reader.source
    TwoLeaves.left.node.page 125
  obtain ⟨-, herror, -⟩ := depths_agree TwoLeaves.reader.codec TwoLeaves.reader.source
    TwoLeaves.left.node.page 3
  have hread : TwoLeaves.reader.codec.read TwoLeaves.reader.source TwoLeaves.left.node.page true
      .full 125 = .ok (TwoLeaves.row 4 125 2 22 1) := by
    decide +kernel
  obtain ⟨k, hk, rfl, -⟩ := hfull _ hread
  exact ⟨hread, ⟨_, hk, rfl, rfl⟩, hnext _ _ _ hread (by decide), herror _ rfl⟩

end Tablespace.Codec
