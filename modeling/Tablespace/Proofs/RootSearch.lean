import Mathlib.Computability.StateTransition
import Tablespace.Proofs.PageErrors
import Tablespace.Proofs.Tree

/-! # The search for the root

The root of the clustered index is the page that the options name, or else the first page from page
3 on that is no page of the dictionary. The search goes from page to page, past no more pages of the
dictionary than the options allow, and what it ends at has to be a root: an index page without
siblings. Here it goes turn by turn, as long as there is a turn. It comes to its end on any image,
since each turn passes one of the pages that the options allow.

The number of a page has 32 bits. A dictionary that has all the numbers from 3 on takes the search
back to page 0, if the options allow that many pages, and a root there is found although it does not
stand behind the dictionary.

* `Root.IsDictionary`, `Root.IsRoot`: the pages that the search passes, and those that it ends at.
  `Root.IsFirst`: the root behind the dictionary, of which there is one at most.
* `Root.turn`: a turn of the search. `Root.turn_eq_some`: all that a turn does.
* `Root.Passed`: what holds between turns. `Root.Passed.turn` is a step of it, and
  `Root.passed_of_reaches` the whole of it.
* `Root.exists_end`: the search comes to its end, and gives what is found there.
* `Root.Overruns`: a dictionary that the search does not get behind.
* `Root.finds`: which page is found, and when none is. -/

namespace Tablespace

open StateTransition

namespace Root
variable {i : Image} {o : Options}

/-! ### Pages -/

/-- **A page of the dictionary.** -/
def IsDictionary (i : Image) (page : Nat) : Prop := ∃ p, i.load page = .ok p ∧ p.kind = .dictionary

/-- **A root**: an index page without siblings, and what it holds as such. -/
structure IsRoot (i : Image) (page : Nat) (x : IndexPage) : Prop where
  exists_page : page < i.pageCount
  parses : ∃ p, i.load page = .ok p ∧ p.kind = .index ∧ IndexPage.ofPage p = .ok x
  prev : x.prev = none
  next : x.next = none

/-- A candidate is a page of the image that loads. -/
theorem candidate_eq_ok {page : Nat} {p : Page} :
    candidate i page = .ok p ↔ i.load page = .ok p := by
  unfold candidate
  constructor
  · intro h
    split at h
    · exact h
    · cases h
  · intro h
    rw [if_pos (Image.load_eq_ok h).1, h]

theorem accept_eq_ok {p : Page} {x : IndexPage} : accept p = .ok x ↔
    p.kind = .index ∧ IndexPage.ofPage p = .ok x ∧ x.prev = none ∧ x.next = none := by
  have hroot : ∀ x : IndexPage, x.isRoot ↔ x.prev = none ∧ x.next = none := by
    simp [IndexPage.isRoot]
  unfold accept
  constructor
  · intro h
    split at h
    · next hkind =>
      obtain ⟨x', hx, h⟩ := bind_eq_ok.mp h
      split at h
      · next hx' =>
        cases h
        exact ⟨hkind, hx, (hroot x).mp hx'⟩
      · exact absurd h Page.damaged_ne_ok
    · exact absurd h Page.damaged_ne_ok
  · rintro ⟨hkind, hx, hlinks⟩
    rw [if_pos hkind, bind_eq_ok]
    exact ⟨x, hx, if_pos ((hroot x).mpr hlinks)⟩

theorem IsDictionary.lt_pageCount {page : Nat} (h : IsDictionary i page) : page < i.pageCount := by
  obtain ⟨p, hp, -⟩ := h
  exact (Image.load_eq_ok hp).1

/-- A root is no page of the dictionary. -/
theorem IsRoot.not_isDictionary {page : Nat} {x : IndexPage} (h : IsRoot i page x) :
    ¬ IsDictionary i page := by
  rintro ⟨p, hp, hkind⟩
  obtain ⟨p', hp', hkind', -⟩ := h.parses
  rw [hp] at hp'
  cases hp'
  rw [hkind] at hkind'
  cases hkind'

theorem IsRoot.unique {page : Nat} {x y : IndexPage} (hx : IsRoot i page x) (hy : IsRoot i page y) :
    x = y := by
  obtain ⟨p, hp, -, hx⟩ := hx.parses
  obtain ⟨p', hp', -, hy⟩ := hy.parses
  rw [hp] at hp'
  cases hp'
  rw [hx] at hy
  cases hy
  rfl

/-- **The root behind the dictionary**: the first page from page 3 on that is no page of the
dictionary, if it is a root. -/
structure IsFirst (i : Image) (r : Nat) (x : IndexPage) : Prop where
  three_le : 3 ≤ r
  dictionary : ∀ n, 3 ≤ n → n < r → IsDictionary i n
  root : IsRoot i r x

/-- There is one such page at most. -/
theorem IsFirst.unique {r r' : Nat} {x x' : IndexPage} (h : IsFirst i r x) (h' : IsFirst i r' x') :
    r = r' ∧ x = x' := by
  have hr : r = r' := by
    rcases Nat.lt_trichotomy r r' with hlt | heq | hgt
    · exact absurd (h'.dictionary r h.three_le hlt) h.root.not_isDictionary
    · exact heq
    · exact absurd (h.dictionary r' h'.three_le hgt) h'.root.not_isDictionary
  subst hr
  exact ⟨rfl, h.root.unique h'.root⟩

/-! ### The loop -/

/-- **A search in progress**: the page that it is at, and how many it has passed. -/
structure Progress where
  page : Nat
  passed : Nat

/-- A search before its first page. -/
def start (o : Options) : Progress := ⟨o.rootPage.getD firstRootPage, 0⟩

/-- **A turn of the search**: past a page of the dictionary, if the options name no root and allow
one more. -/
def turn (i : Image) (o : Options) (s : Progress) : Option Progress :=
  match candidate i s.page with
  | .error _ => none
  | .ok p =>
    if p.kind = .dictionary ∧ o.rootPage = none ∧ s.passed < o.rootSearchLimit then
      some ⟨nextPage s.page, s.passed + 1⟩
    else none

/-- What a search gives that ends at its page. -/
def answer (i : Image) (s : Progress) : Except Error (Nat × IndexPage) := do
  let p ← candidate i s.page
  return (s.page, ← accept p)

/-- **All that a turn does.** -/
theorem turn_eq_some {s t : Progress} : turn i o s = some t ↔
    IsDictionary i s.page ∧ o.rootPage = none ∧ s.passed < o.rootSearchLimit ∧
      t = ⟨nextPage s.page, s.passed + 1⟩ := by
  unfold turn IsDictionary
  cases hp : candidate i s.page with
  | error e =>
    have hload : ∀ p, i.load s.page ≠ .ok p := fun p h => by
      rw [candidate_eq_ok.mpr h] at hp
      cases hp
    simp [hload]
  | ok p =>
    simp [candidate_eq_ok.mp hp, and_assoc, eq_comm]

theorem turn_eq_none {s : Progress} : turn i o s = none ↔
    ¬ (IsDictionary i s.page ∧ o.rootPage = none ∧ s.passed < o.rootSearchLimit) := by
  rw [Option.eq_none_iff_forall_ne_some]
  constructor
  · rintro h ⟨hdictionary, hunnamed, hlt⟩
    exact h _ (turn_eq_some.mpr ⟨hdictionary, hunnamed, hlt, rfl⟩)
  · intro h t ht
    obtain ⟨hdictionary, hunnamed, hlt, -⟩ := turn_eq_some.mp ht
    exact h ⟨hdictionary, hunnamed, hlt⟩

theorem answer_eq_ok {s : Progress} {page : Nat} {x : IndexPage} :
    answer i s = .ok (page, x) ↔ page = s.page ∧ IsRoot i page x := by
  unfold answer
  simp only [bind_eq_ok, pure_eq_ok, candidate_eq_ok, accept_eq_ok, Prod.mk.injEq]
  constructor
  · rintro ⟨p, hp, x, ⟨hkind, hx, hprev, hnext⟩, rfl, rfl⟩
    exact ⟨rfl, (Image.load_eq_ok hp).1, ⟨p, hp, hkind, hx⟩, hprev, hnext⟩
  · rintro ⟨rfl, h⟩
    obtain ⟨p, hp, hkind, hx⟩ := h.parses
    exact ⟨p, hp, x, ⟨hkind, hx, h.prev, h.next⟩, rfl, rfl⟩

/-! ### What holds between turns -/

/-- **What a search has passed**: pages of the dictionary only, one after the other, and none of
them if the options name the root. -/
structure Passed (i : Image) (o : Options) (s : Progress) : Prop where
  page : s.page = nextPage^[s.passed] (start o).page
  limit : s.passed ≤ o.rootSearchLimit
  unnamed : s.passed ≠ 0 → o.rootPage = none
  dictionary : ∀ k < s.passed, IsDictionary i (nextPage^[k] (start o).page)

theorem passed_start (i : Image) (o : Options) : Passed i o (start o) where
  page := rfl
  limit := Nat.zero_le _
  unnamed := fun h => absurd rfl h
  dictionary := fun _ hk => absurd hk (Nat.not_lt_zero _)

/-- **A turn passes one more page.** -/
theorem Passed.turn {s t : Progress} (h : Passed i o s) (ht : turn i o s = some t) :
    Passed i o t := by
  obtain ⟨hdictionary, hunnamed, hlt, rfl⟩ := turn_eq_some.mp ht
  constructor
  case page => rw [Function.iterate_succ_apply', ← h.page]
  case limit => exact hlt
  case unnamed => exact fun _ => hunnamed
  case dictionary =>
    intro k hk
    rcases Nat.lt_succ_iff_lt_or_eq.mp hk with hlt | rfl
    · exact h.dictionary k hlt
    · rw [← h.page]
      exact hdictionary

/-- **What a search has passed** after any number of turns. -/
theorem passed_of_reaches {s : Progress} (h : Reaches (turn i o) (start o) s) : Passed i o s := by
  induction h with
  | refl => exact passed_start i o
  | tail _ ht ih => exact ih.turn ht

/-- A search goes on from pages of the image only. -/
theorem Passed.page_le {s : Progress} (h : Passed i o s) :
    s.page ≤ max (start o).page i.pageCount := by
  have hpage := h.page
  cases hpassed : s.passed with
  | zero =>
    rw [hpassed] at hpage
    exact hpage ▸ Nat.le_max_left ..
  | succ k =>
    rw [hpassed, Function.iterate_succ_apply'] at hpage
    have hlast := (h.dictionary k (by omega)).lt_pageCount
    have hnext : s.page ≤ nextPage^[k] (start o).page + 1 := hpage ▸ Nat.mod_le ..
    omega

/-- Pages of the dictionary in a row are passed, as many as the options allow. -/
theorem reaches_of_isDictionary {k : Nat} (ho : o.rootPage = none) (hk : k ≤ o.rootSearchLimit)
    (h : ∀ j < k, IsDictionary i (nextPage^[j] (start o).page)) :
    Reaches (turn i o) (start o) ⟨nextPage^[k] (start o).page, k⟩ := by
  induction k with
  | zero => exact .refl
  | succ k ih =>
    have hprefix := ih (by omega) fun j hj => h j (by omega)
    refine hprefix.tail (turn_eq_some.mpr ⟨h k (Nat.lt_succ_self k), ho, hk, ?_⟩)
    rw [Function.iterate_succ_apply']

/-! ### The end -/

/-- A search that may pass some more pages comes to its end. -/
theorem exists_end_of_skips {skips : Nat} (ho : o.rootPage = none) {s : Progress}
    (hs : s.passed + skips = o.rootSearchLimit) :
    ∃ t ∈ eval (turn i o) s, search i s.page skips = answer i t := by
  have stays (h : turn i o s = none) : s ∈ eval (turn i o) s := mem_eval.mpr ⟨.refl, h⟩
  induction skips generalizing s with
  | zero =>
    have hturn : turn i o s = none := turn_eq_none.mpr fun ⟨_, _, hlt⟩ => by omega
    exact ⟨s, stays hturn, rfl⟩
  | succ skips ih =>
    unfold search
    cases hp : candidate i s.page with
    | error e =>
      have hturn : turn i o s = none := by simp only [turn, hp]
      refine ⟨s, stays hturn, ?_⟩
      simp only [answer, hp]
      rfl
    | ok p =>
      by_cases hkind : p.kind = .dictionary
      · have hnext : turn i o s = some ⟨nextPage s.page, s.passed + 1⟩ :=
          turn_eq_some.mpr ⟨⟨p, candidate_eq_ok.mp hp, hkind⟩, ho, by omega, rfl⟩
        have hmore : s.passed + 1 + skips = o.rootSearchLimit := by omega
        obtain ⟨t, ht, hsearch⟩ := ih (s := ⟨nextPage s.page, s.passed + 1⟩) hmore
          fun h => mem_eval.mpr ⟨.refl, h⟩
        rw [reaches_eval (.single hnext)]
        refine ⟨t, ht, hsearch ▸ ?_⟩
        simp only [bind, Except.bind, if_pos hkind]
      · have hturn : turn i o s = none := by simp only [turn, hp, hkind, false_and, if_false]
        refine ⟨s, stays hturn, ?_⟩
        simp only [answer, hp, bind, Except.bind, if_neg hkind]

/-- **The search comes to its end** on any image, and gives what is found there. -/
theorem exists_end (i : Image) (o : Options) :
    ∃ s ∈ eval (turn i o) (start o), find i o = answer i s := by
  unfold find
  cases ho : o.rootPage with
  | some page =>
    have hstart : start o = ⟨page, 0⟩ := by simp [start, ho]
    have hturn : turn i o (start o) = none := turn_eq_none.mpr fun ⟨_, hunnamed, _⟩ => by
      rw [ho] at hunnamed
      cases hunnamed
    rw [hstart] at hturn ⊢
    exact ⟨⟨page, 0⟩, mem_eval.mpr ⟨.refl, hturn⟩, rfl⟩
  | none =>
    have hstart : start o = ⟨firstRootPage, 0⟩ := by simp [start, ho]
    rw [hstart]
    exact exists_end_of_skips (s := ⟨firstRootPage, 0⟩) ho (Nat.zero_add _)

/-- What is found where no turn goes on. -/
theorem find_of_reaches {s : Progress} (h : Reaches (turn i o) (start o) s)
    (hs : turn i o s = none) : find i o = answer i s := by
  obtain ⟨t, ht, hfind⟩ := exists_end i o
  rw [hfind, Part.mem_unique ht (mem_eval.mpr ⟨h, hs⟩)]

/-- **The page that is found**: a root, past pages of the dictionary only. -/
theorem find_eq_ok {r : Nat} {x : IndexPage} : find i o = .ok (r, x) ↔
    ∃ k, r = nextPage^[k] (start o).page ∧ k ≤ o.rootSearchLimit ∧ (k ≠ 0 → o.rootPage = none) ∧
      (∀ j < k, IsDictionary i (nextPage^[j] (start o).page)) ∧ IsRoot i r x := by
  constructor
  · intro h
    obtain ⟨s, hs, hfind⟩ := exists_end i o
    have hpassed := passed_of_reaches (mem_eval.mp hs).1
    rw [hfind] at h
    obtain ⟨rfl, hroot⟩ := answer_eq_ok.mp h
    exact ⟨s.passed, hpassed.page, hpassed.limit, hpassed.unnamed, hpassed.dictionary, hroot⟩
  · rintro ⟨k, rfl, hk, hunnamed, hdictionary, hroot⟩
    have hreaches : Reaches (turn i o) (start o) ⟨nextPage^[k] (start o).page, k⟩ := by
      rcases Nat.eq_zero_or_pos k with rfl | hpos
      · exact .refl
      · exact reaches_of_isDictionary (hunnamed (by omega)) hk hdictionary
    have hturn : turn i o ⟨nextPage^[k] (start o).page, k⟩ = none :=
      turn_eq_none.mpr fun ⟨hdictionary, _⟩ => hroot.not_isDictionary hdictionary
    rw [find_of_reaches hreaches hturn]
    exact answer_eq_ok.mpr ⟨rfl, hroot⟩

/-! ### Numbers of 32 bits -/

/-- **A dictionary that the search does not get behind**: it has all the numbers from page 3 on, and
the options allow to pass as many pages. -/
structure Overruns (i : Image) (o : Options) : Prop where
  limit : 0x100000000 ≤ 3 + o.rootSearchLimit
  dictionary : ∀ n, 3 ≤ n → n < 0x100000000 → IsDictionary i n

/-- No image of fewer pages holds such a dictionary. -/
theorem Overruns.le_pageCount (h : Overruns i o) : 0x100000000 ≤ i.pageCount :=
  (h.dictionary 0xFFFFFFFF (by decide) (by decide)).lt_pageCount

/-- Any other dictionary comes to its end within the numbers of 32 bits. -/
theorem add_lt_of_not_overruns {k : Nat} (h : ¬ Overruns i o) (hk : k ≤ o.rootSearchLimit)
    (hdictionary : ∀ n, 3 ≤ n → n < 3 + k → n < 0x100000000 → IsDictionary i n) :
    3 + k < 0x100000000 := by
  by_contra hge
  exact h ⟨by omega, fun n hn hlt => hdictionary n hn (by omega) hlt⟩

/-- Going on from page 3 is counting, in 32 bits. -/
theorem nextPage_iterate (k : Nat) : nextPage^[k] 3 = (3 + k) % 0x100000000 := by
  induction k with
  | zero => rfl
  | succ k ih => rw [Function.iterate_succ_apply', ih, nextPage, Nat.mod_add_mod, Nat.add_assoc]

theorem start_page (ho : o.rootPage = none) : (start o).page = 3 := by
  simp [start, ho, firstRootPage]

/-- The page that is found if the options name none, in numbers of 32 bits. -/
theorem find_eq_ok_of_unnamed (ho : o.rootPage = none) {r : Nat} {x : IndexPage} :
    find i o = .ok (r, x) ↔ ∃ k ≤ o.rootSearchLimit, r = (3 + k) % 0x100000000 ∧
      (∀ j < k, IsDictionary i ((3 + j) % 0x100000000)) ∧ IsRoot i r x := by
  rw [find_eq_ok, start_page ho]
  simp only [nextPage_iterate]
  constructor
  · rintro ⟨k, hr, hk, -, h⟩
    exact ⟨k, hk, hr, h⟩
  · rintro ⟨k, hk, hr, h⟩
    exact ⟨k, hr, hk, fun _ => ho, h⟩

/-- **The root behind the dictionary** is what is found, unless the dictionary overruns the search.
-/
theorem find_eq_ok_iff_isFirst (ho : o.rootPage = none) (h : ¬ Overruns i o) {r : Nat}
    {x : IndexPage} : find i o = .ok (r, x) ↔ r - 3 ≤ o.rootSearchLimit ∧ IsFirst i r x := by
  rw [find_eq_ok_of_unnamed ho]
  constructor
  · rintro ⟨k, hk, hr, hdictionary, hroot⟩
    have hpages : ∀ n, 3 ≤ n → n < 3 + k → n < 0x100000000 → IsDictionary i n := by
      intro n hn hlt hword
      have hpage := hdictionary (n - 3) (by omega)
      rwa [Nat.add_sub_cancel' hn, Nat.mod_eq_of_lt hword] at hpage
    have hlt := add_lt_of_not_overruns h hk hpages
    rw [Nat.mod_eq_of_lt hlt] at hr
    subst hr
    exact ⟨by omega, by omega, fun n hn hless => hpages n hn hless (by omega), hroot⟩
  · rintro ⟨hlimit, hthree, hdictionary, hroot⟩
    have hr : 3 + (r - 3) = r := Nat.add_sub_cancel' hthree
    have hlt := add_lt_of_not_overruns h hlimit fun n hn hless _ => hdictionary n hn (hr ▸ hless)
    refine ⟨r - 3, hlimit, ?_, fun j hj => ?_, hroot⟩
    · rw [Nat.mod_eq_of_lt hlt, hr]
    · rw [Nat.mod_eq_of_lt (by omega)]
      exact hdictionary _ (by omega) (by omega)

/-- **The dictionary up to the end of the image**: the search fails at the last page that the
options allow, or behind the last page of the image. -/
theorem find_of_isDictionary (ho : o.rootPage = none) (hover : ¬ Overruns i o)
    (h : ∀ n, 3 ≤ n → n < i.pageCount → IsDictionary i n) :
    find i o = .error (if 3 + o.rootSearchLimit < i.pageCount
      then .corrupt (3 + o.rootSearchLimit) (.rootKind .dictionary)
      else .corrupt (max 3 i.pageCount) (.noRoot i.pageCount)) := by
  have reaches (k : Nat) (hk : k ≤ o.rootSearchLimit) (hle : 3 + k ≤ max 3 i.pageCount) :
      Reaches (turn i o) (start o) ⟨3 + k, k⟩ := by
    have hlt := add_lt_of_not_overruns hover hk fun n hn hless _ => h n hn (by omega)
    have hreaches := reaches_of_isDictionary (i := i) ho hk fun j hj => by
      rw [start_page ho, nextPage_iterate, Nat.mod_eq_of_lt (by omega)]
      exact h _ (by omega) (by omega)
    rwa [start_page ho, nextPage_iterate, Nat.mod_eq_of_lt hlt] at hreaches
  split
  · next hlt =>
    have hturn : turn i o ⟨3 + o.rootSearchLimit, o.rootSearchLimit⟩ = none :=
      turn_eq_none.mpr fun ⟨_, _, hless⟩ => Nat.lt_irrefl _ hless
    obtain ⟨p, hp, hkind⟩ := h _ (Nat.le_add_right ..) hlt
    rw [find_of_reaches (reaches _ le_rfl (by omega)) hturn]
    simp only [answer, candidate_eq_ok.mpr hp, bind, Except.bind, accept, hkind]
    rw [← (Image.load_eq_ok hp).2]
    rfl
  · next hge =>
    have hcandidate : candidate i (max 3 i.pageCount) =
        .error (.corrupt (max 3 i.pageCount) (.noRoot i.pageCount)) := if_neg (by omega)
    have hpage : 3 + (max 3 i.pageCount - 3) = max 3 i.pageCount := by omega
    have hreaches := reaches (max 3 i.pageCount - 3) (by omega) (by omega)
    rw [hpage] at hreaches
    rw [find_of_reaches hreaches (by simp only [turn, hcandidate])]
    simp only [answer, hcandidate]
    rfl

/-- **A search fails** by blaming a page only. -/
theorem blamesPage_answer (i : Image) (s : Progress) : FailsOnly Error.BlamesPage (answer i s) := by
  have candidate : FailsOnly Error.BlamesPage (candidate i s.page) :=
    .ite (fun h => i.blamesPage_load h) fun _ => .error (.corrupt ..)
  refine .bind candidate fun p _ => .bind ?_ fun x _ => .ok _
  refine .ite (fun _ => ?_) fun _ => .error (.corrupt ..)
  refine .bind (IndexPage.blamesPage_ofPage p) fun x _ => ?_
  exact .ite (fun _ => .ok _) fun _ => .error (.corrupt ..)

/-- **Which page is found**, whatever the image holds and however large the options are. If they
name no root, it is the first page from page 3 on that is no page of the dictionary, if that is a
root and there are no more pages before it than may be passed; there is one such page at most. This
takes a dictionary that does not overrun the search; behind one that does, the search goes on with
page 0. If the options name a page, it is that page, if it is a root. Any other search fails and
blames a page. Each one comes to its end: it passes no more pages than the options allow, and goes
on from pages of the image only, so that it fails in a dictionary that fills the image, at its last
turn or behind the last page. -/
theorem finds (i : Image) (o : Options) :
    (o.rootPage = none → ∀ r x, find i o = .ok (r, x) ↔
      ∃ k ≤ o.rootSearchLimit, r = (3 + k) % 0x100000000 ∧
        (∀ j < k, IsDictionary i ((3 + j) % 0x100000000)) ∧ IsRoot i r x) ∧
    (o.rootPage = none → ¬ Overruns i o → ∀ r x, find i o = .ok (r, x) ↔
      r - 3 ≤ o.rootSearchLimit ∧ IsFirst i r x) ∧
    (∀ r x r' x', IsFirst i r x → IsFirst i r' x' → r = r' ∧ x = x') ∧
    (Overruns i o → 0x100000000 ≤ i.pageCount) ∧
    (∀ page, o.rootPage = some page →
      ∀ r x, find i o = .ok (r, x) ↔ r = page ∧ IsRoot i page x) ∧
    ((∃ r x, find i o = .ok (r, x)) ∨ ∃ e, find i o = .error e ∧ e.BlamesPage) ∧
    (∃ s ∈ eval (turn i o) (start o), find i o = answer i s) ∧
    (∀ s, Reaches (turn i o) (start o) s →
      s.passed ≤ o.rootSearchLimit ∧ s.page ≤ max (start o).page i.pageCount) ∧
    (o.rootPage = none → ¬ Overruns i o → (∀ n, 3 ≤ n → n < i.pageCount → IsDictionary i n) →
      find i o = .error (if 3 + o.rootSearchLimit < i.pageCount
        then .corrupt (3 + o.rootSearchLimit) (.rootKind .dictionary)
        else .corrupt (max 3 i.pageCount) (.noRoot i.pageCount))) := by
  refine ⟨fun ho r x => find_eq_ok_of_unnamed ho,
    fun ho hover r x => find_eq_ok_iff_isFirst ho hover, fun r x r' x' => IsFirst.unique,
    Overruns.le_pageCount, fun page ho r x => ?_, ?_, exists_end i o, fun s hs => ?_,
    find_of_isDictionary⟩
  · have hstart : (start o).page = page := by simp [start, ho]
    rw [find_eq_ok, hstart]
    constructor
    · rintro ⟨k, hr, -, hunnamed, -, hroot⟩
      have hk : k = 0 := by
        by_contra hne
        rw [hunnamed hne] at ho
        cases ho
      subst hk
      subst hr
      exact ⟨rfl, hroot⟩
    · rintro ⟨rfl, hroot⟩
      exact ⟨0, rfl, Nat.zero_le _, fun h => absurd rfl h, nofun, hroot⟩
  · obtain ⟨s, -, hfind⟩ := exists_end i o
    cases hresult : find i o with
    | ok found => exact .inl ⟨found.1, found.2, rfl⟩
    | error e =>
      rw [hfind] at hresult
      exact .inr ⟨e, rfl, (blamesPage_answer i s).holds e hresult⟩
  · have hpassed := passed_of_reaches hs
    exact ⟨hpassed.limit, hpassed.page_le⟩

/-- The bytes of a page of the dictionary. -/
def dictionaryPieces : List (Nat × List UInt8) := [(24, [0x45, 0xBD])]

/-- An image whose pages are of the dictionary but for one, which is a root. -/
def dictionaryBut (root pages : Nat) : Image where
  data :=
    { size := pages * pageSize
      byte := fun i => TwoLeaves.byteOfPieces
        (if i / pageSize = root then TwoLeaves.piecesOf 5 else dictionaryPieces) (i % pageSize) }
  verifyChecksums := false

/-- An image of the dictionary up to its last page, which is a root. -/
def dictionaryFirst : Image := dictionaryBut 5 6

theorem finds_dictionaryFirst :
    find dictionaryFirst { Options.default with rootSearchLimit := 2 } =
      .ok (5, TwoLeaves.right.node.index) ∧
    ∀ r x, find dictionaryFirst { Options.default with rootSearchLimit := 1 } ≠ .ok (r, x) := by
  have loads {page : Nat} {kind : PageKind}
      (h : (dictionaryFirst.load page).map Page.kind = .ok kind) :
      ∃ p, dictionaryFirst.load page = .ok p ∧ p.kind = kind := map_eq_ok.mp h
  have hfirst : IsFirst dictionaryFirst 5 TwoLeaves.right.node.index := by
    have hdictionary : ∀ n < 5, IsDictionary dictionaryFirst n := fun n hn =>
      loads ((by decide +kernel : ∀ n < 5,
        (dictionaryFirst.load n).map Page.kind = .ok .dictionary) n hn)
    obtain ⟨p, hp, hkind⟩ := loads (by decide +kernel :
      (dictionaryFirst.load 5).map Page.kind = .ok .index)
    have hparses : dictionaryFirst.load 5 >>= IndexPage.ofPage =
        .ok TwoLeaves.right.node.index := by decide +kernel
    rw [hp] at hparses
    exact ⟨by decide, fun n _ hn => hdictionary n hn,
      ⟨by decide, ⟨p, hp, hkind, hparses⟩, by decide, by decide⟩⟩
  have hshort (o : Options) : ¬ Overruns dictionaryFirst o := fun h =>
    absurd ((finds dictionaryFirst o).2.2.2.1 h) (by decide)
  have hiff (o : Options) (ho : o.rootPage = none) := (finds dictionaryFirst o).2.1 ho (hshort o)
  constructor
  · exact (hiff _ rfl _ _).mpr ⟨by decide, hfirst⟩
  · intro r x h
    obtain ⟨hlimit, hfirst'⟩ := (hiff _ rfl r x).mp h
    obtain ⟨rfl, -⟩ := hfirst.unique hfirst'
    exact absurd hlimit (by decide)

/-! ### A search that comes back to page 0 -/

/-- A page of the dictionary, as its bytes. -/
def dictionaryPage : Buffer where
  size := pageSize
  byte := fun j => TwoLeaves.byteOfPieces dictionaryPieces (j % pageSize)

theorem exists_frame_dictionaryPage (n : Nat) :
    ∃ p, Page.frame n dictionaryPage = .ok p ∧ p.kind = .dictionary := by
  let header : PageHeader :=
    { checksum := 0, number := 0, prevField := 0, nextField := 0, lsn := 0, kind := .dictionary,
      flushLsn := 0, spaceId := 0 }
  let trailer : PageTrailer := { checksum := 0, lsnLow := 0 }
  have hheader : dictionaryPage.readFrom 0 PageHeader.read = .ok header := by decide +kernel
  have htrailer : dictionaryPage.readFrom bodyEnd PageTrailer.read = .ok trailer := by
    decide +kernel
  have hsize : dictionaryPage.size = pageSize := rfl
  refine ⟨⟨n, header, trailer, dictionaryPage, hsize⟩, ?_, rfl⟩
  unfold Page.frame
  rw [dif_pos hsize, hheader, htrailer]
  rfl

/-- An image of as many pages as there are numbers of 32 bits, all of the dictionary but page 0. -/
def dictionaryRound : Image := dictionaryBut 0 0x100000000

theorem isDictionary_dictionaryRound {n : Nat} (hn : 0 < n) (hlt : n < 0x100000000) :
    IsDictionary dictionaryRound n := by
  have hslice : dictionaryRound.data.slice (n * pageSize) pageSize = dictionaryPage := by
    have hbyte : ∀ j, dictionaryRound.data.byte (n * pageSize + j) = dictionaryPage.byte j := by
      intro j
      have hdiv : (n * pageSize + j) / pageSize ≠ 0 := by unfold pageSize; omega
      have hmod : (n * pageSize + j) % pageSize = j % pageSize := Nat.mul_add_mod_self_right ..
      show TwoLeaves.byteOfPieces _ _ = _
      rw [if_neg hdiv, hmod]
      rfl
    exact congrArg (Buffer.mk pageSize) (funext hbyte)
  obtain ⟨p, hp, hkind⟩ := exists_frame_dictionaryPage n
  have hcount : dictionaryRound.pageCount = 0x100000000 := by decide +kernel
  refine ⟨p, bind_eq_ok.mpr ⟨dictionaryPage, ?_, ?_⟩, hkind⟩
  · rw [Image.raw, hcount, if_pos hlt, hslice]
  · have hunchecked : ¬ dictionaryRound.verifyChecksums = true := Bool.false_ne_true
    rw [if_neg hunchecked]
    exact hp

/-- **A root that is not behind the dictionary** is found where a dictionary overruns the search. -/
theorem find_dictionaryRound :
    find dictionaryRound { Options.default with rootSearchLimit := 0xFFFFFFFF } =
      .ok (0, { TwoLeaves.right.node.index with number := 0 }) ∧
    ∀ x, ¬ IsFirst dictionaryRound 0 x := by
  have hroot : IsRoot dictionaryRound 0 { TwoLeaves.right.node.index with number := 0 } := by
    obtain ⟨p, hp, hkind⟩ := map_eq_ok.mp (by decide +kernel :
      Page.kind <$> dictionaryRound.load 0 = .ok .index)
    have hparses : dictionaryRound.load 0 >>= IndexPage.ofPage =
        .ok { TwoLeaves.right.node.index with number := 0 } := by decide +kernel
    rw [hp] at hparses
    exact ⟨(Image.load_eq_ok hp).1, ⟨p, hp, hkind, hparses⟩, by decide, by decide⟩
  constructor
  · refine (find_eq_ok_of_unnamed rfl).mpr ⟨0xFFFFFFFD, by decide, by decide, fun j hj => ?_, hroot⟩
    rw [Nat.mod_eq_of_lt (by omega)]
    exact isDictionary_dictionaryRound (by omega) (by omega)
  · exact fun x h => absurd h.three_le (by decide)

end Root
end Tablespace
