import Tablespace.Proofs.Loading

/-! # What a decoded record is

The decoding of a record that comes to its end, taken apart. Its header is decoded first and tells
what the record is. The key of a user record has as many values as the layout has key fields, and a
whole record has the same header, key and child as the same record up to its key.

* `Codec.read_eq_ok`: what is decoded is a system record, or a user record of the level of its page.
* `Codec.read_key_of_read`: a record that can be decoded can be decoded up to its key.
* `Codec.length_key_of_read`: the key of a user record is complete. -/

namespace Tablespace

/-! ### Records -/

namespace Record

/-- **A record up to its key.** -/
def keyPart (r : Record) : Record :=
  { r with values := [], transactionId := none, rollPointer := none }

/-- The record of a header, without any field. -/
def ofHeader (p : Page) (origin : Nat) (header : RecordHeader) : Record :=
  { page := p.number, origin, header, key := [], values := [], transactionId := none
    rollPointer := none, child := none }

@[simp] theorem nextOrigin?_keyPart (r : Record) : r.keyPart.nextOrigin? = r.nextOrigin? := rfl

theorem compareKey_of_isUser {r : Record} (h : r.isUser) (k : Key) :
    r.compareKey k = compareKeys r.key k := by
  unfold compareKey
  simp only [isUser, Bool.or_eq_true, decide_eq_true_eq] at h
  rcases h with h | h <;> rw [h]

theorem compareKey_of_isInfimum {r : Record} (h : r.isInfimum) (k : Key) :
    r.compareKey k = .lt := by
  unfold compareKey
  rw [of_decide_eq_true h]

theorem compareKey_of_isSupremum {r : Record} (h : r.isSupremum) (k : Key) :
    r.compareKey k = .gt := by
  unfold compareKey
  rw [of_decide_eq_true h]

theorem nextOrigin?_of_isSupremum {r : Record} (h : r.isSupremum) : r.nextOrigin? = none := by
  unfold nextOrigin?
  rw [if_pos (Or.inl h)]

theorem not_isInfimum_of_isUser {r : Record} (h : r.isUser) : r.isInfimum = false := by
  simp only [isUser, Bool.or_eq_true, decide_eq_true_eq] at h
  rcases h with h | h <;> simp [isInfimum, h]

end Record

/-- The status of the user records of a level. -/
def Status.ofLevel (leaf : Bool) : Status := if leaf then .ordinary else .nodePointer

/-! ### Decoding -/

namespace Codec
variable {c : Codec} {src : PageSource} {p : Page} {leaf : Bool} {depth : Depth}

theorem length_readFields {header : Nat} {fs : List Field} {h h' : Heads} {vs : List Value}
    (e : c.readFields src p header fs h = .ok (vs, h')) : vs.length = fs.length := by
  induction fs generalizing h h' vs with
  | nil => cases e; rfl
  | cons f fs ih =>
    simp only [readFields, bind_eq_ok, pure_eq_ok] at e
    obtain ⟨⟨v, h₁⟩, -, ⟨vs', h₂⟩, e, he⟩ := e
    cases he
    rw [List.length_cons, List.length_cons, ih e]

/-- **What is decoded**: a system record, or a user record of the level of its page. -/
theorem read_eq_ok {origin : Nat} {r : Record} :
    c.read src p leaf depth origin = .ok r ↔ ∃ header, readHeader p origin = .ok header ∧
      ((header.status = .infimum ∨ header.status = .supremum) ∧
          Record.ofHeader p origin header = r ∨
        header.status = .ofLevel leaf ∧
          c.readUser src p leaf depth (.ofHeader p origin header) = .ok r) := by
  unfold read
  rw [bind_eq_ok]
  refine exists_congr fun header => and_congr_right fun _ => ?_
  cases header.status <;> cases leaf <;>
    simp [Status.ofLevel, pure_eq_ok, Page.damaged_ne_ok, Record.ofHeader]

theorem readUser_key_of_readUser {r r' : Record} (hr : r.keyPart = r)
    (e : c.readUser src p leaf depth r = .ok r') :
    c.readUser src p leaf .key r = .ok r'.keyPart := by
  unfold readUser at e ⊢
  simp only at e ⊢
  split at e
  · exact absurd e Page.damaged_ne_ok
  · next hn =>
    rw [if_neg hn]
    simp only [bind_eq_ok] at e ⊢
    obtain ⟨body, hb, ⟨key, h⟩, hk, e⟩ := e
    refine ⟨body, hb, ⟨key, h⟩, hk, ?_⟩
    rw [← hr]
    cases leaf with
    | false =>
      simp only [Bool.not_false, if_true, bind_eq_ok, pure_eq_ok] at e ⊢
      obtain ⟨child, hc, rfl⟩ := e
      exact ⟨child, hc, rfl⟩
    | true =>
      simp only [Bool.not_true, Bool.false_eq_true, if_false, if_true] at e ⊢
      split at e
      · cases e; rfl
      · simp only [bind_eq_ok, pure_eq_ok] at e
        obtain ⟨_, -, _, -, _, -, rfl⟩ := e
        rfl

theorem readUser_key_eq_ok {r r' : Record} (e : c.readUser src p leaf .key r = .ok r') :
    ∃ key child, key.length = c.keyLength ∧ (leaf = false → child.isSome) ∧
      r' = { r with key, child } := by
  unfold readUser at e
  simp only at e
  split at e
  · exact absurd e Page.damaged_ne_ok
  · simp only [bind_eq_ok] at e
    obtain ⟨body, -, ⟨key, h⟩, hk, e⟩ := e
    cases leaf with
    | false =>
      simp only [Bool.not_false, if_true, bind_eq_ok, pure_eq_ok] at e
      obtain ⟨child, -, rfl⟩ := e
      exact ⟨key, some child.1, length_readFields hk, fun _ => rfl, rfl⟩
    | true =>
      simp only [Bool.not_true, Bool.false_eq_true, if_false, if_true, pure_eq_ok] at e
      exact ⟨key, r.child, length_readFields hk, nofun, e.symm⟩

/-- **A record that can be decoded can be decoded up to its key.** -/
theorem read_key_of_read {origin : Nat} {r : Record}
    (e : c.read src p leaf depth origin = .ok r) :
    c.read src p leaf .key origin = .ok r.keyPart := by
  obtain ⟨header, hh, ⟨hs, rfl⟩ | ⟨hs, e⟩⟩ := read_eq_ok.mp e
  · exact read_eq_ok.mpr ⟨header, hh, Or.inl ⟨hs, rfl⟩⟩
  · exact read_eq_ok.mpr ⟨header, hh, Or.inr ⟨hs, readUser_key_of_readUser rfl e⟩⟩

/-- What a decoded record has in common with what is decoded up to its key. -/
theorem keyPart_of_read {origin : Nat} {r : Record}
    (e : c.read src p leaf depth origin = .ok r) : ∃ key child,
      r.keyPart = { Record.ofHeader p origin r.header with key, child } ∧
        (r.isUser → key.length = c.keyLength ∧ (leaf = false → child.isSome)) := by
  obtain ⟨header, -, ⟨hs, e⟩ | ⟨-, e⟩⟩ := read_eq_ok.mp (read_key_of_read e)
  · have hh : header = r.header := congrArg Record.header e
    subst hh
    refine ⟨[], none, e.symm, fun hu => ?_⟩
    unfold Record.isUser Record.status at hu
    rcases hs with hs | hs <;> simp [hs] at hu
  · obtain ⟨key, child, hl, hc, e⟩ := readUser_key_eq_ok e
    have hh : r.header = header := congrArg Record.header e
    exact ⟨key, child, by rw [e, hh], fun _ => ⟨hl, hc⟩⟩

theorem length_key_of_read {origin : Nat} {r : Record}
    (e : c.read src p leaf depth origin = .ok r) (hu : r.isUser) :
    r.key.length = c.keyLength := by
  obtain ⟨key, child, h, hk⟩ := keyPart_of_read e
  rw [show r.key = key from congrArg Record.key h]
  exact (hk hu).1

theorem exists_child_of_read {origin : Nat} {r : Record}
    (e : c.read src p false depth origin = .ok r) (hu : r.isUser) :
    ∃ child, r.child = some child := by
  obtain ⟨key, child, h, hk⟩ := keyPart_of_read e
  rw [show r.child = child from congrArg Record.child h]
  exact Option.isSome_iff_exists.mp ((hk hu).2 rfl)

end Codec
end Tablespace
