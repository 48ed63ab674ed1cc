import Mathlib.Computability.StateTransition
import Tablespace.Proofs.Found
import Tablespace.Proofs.Runs
import Tablespace.Tree.Walk

/-! # Paths from the root

Walks and descents follow page numbers that stand in the pages, and these may lead anywhere, in
circles too. Here both go step by step, as long as there is a step. They come to their end since a
page that they go to lies one level below the page that led to it, so that no path from the root
has more pages than the root has levels below it, and itself.

* `Reader.walkStep`, `Reader.descentStep`: a step of a walk and of a descent.
* `Reader.Path`: a path down from the root. `Reader.Path.bounded`: the levels of its pages.
* `Reader.exists_walk`, `Reader.exists_descent`: walks and descents come to their ends, and give
  what `Reader.traverse` and `Reader.descend` give.
* `Reader.PointsTo`: a page has a node pointer to another. `Reader.error_of_cycle`: a full scan
  fails if there is a cycle of them below the root.
* `Reader.paths_end`: all of this, whatever the image holds. -/

namespace Tablespace

open StateTransition Relation

/-! ### Walks step by step -/

/-- **A page that a walk is in**, and its records that are still to be followed. -/
structure Frame where
  node : Node
  pending : List Record

/-- **A walk in progress**: the pages that it is in, up to the root, and what it has given. -/
structure Walk where
  frames : List Frame
  run : Run Error Record

/-- The pages from the root to the one that a walk is at. -/
def Walk.path (w : Walk) : List Node := (w.frames.map Frame.node).reverse

/-- A walk is about to go from a page to a child. -/
def Walk.Follows (w : Walk) (n : Node) (child : Nat) : Prop :=
  w.run.failure = none ∧ ∃ rec rest above, w.frames = ⟨n, rec :: rest⟩ :: above ∧
    Reader.childOf n rec = .ok child

namespace Reader

/-- A walk that goes into a page: it gives the rows of a leaf, and is to follow the node pointers
of any other page. -/
def enter (r : Reader) (w : Walk) (n : Node) : Walk :=
  match r.records n with
  | .error e => ⟨⟨n, []⟩ :: w.frames, w.run.andThen (.fail e)⟩
  | .ok l =>
    if n.index.isLeaf then ⟨⟨n, []⟩ :: w.frames, w.run.andThen (.done (l.filter r.isVisible))⟩
    else ⟨⟨n, l⟩ :: w.frames, w.run⟩

/-- A walk that goes into a page, if there is one. -/
def visit (r : Reader) (w : Walk) : Except Error Node → Walk
  | .error e => { w with run := w.run.andThen (.fail e) }
  | .ok n => r.enter w n

/-- **A step of a walk**: back from a page that has been followed, or on to the page of the next
node pointer, which has to lie one level below. There is none after a failure, or above the root. -/
def walkStep (r : Reader) (w : Walk) : Option Walk :=
  match w.run.failure, w.frames with
  | none, ⟨_, []⟩ :: above => some { w with frames := above }
  | none, ⟨n, rec :: rest⟩ :: above =>
    some (r.visit { w with frames := ⟨n, rest⟩ :: above }
      (do r.childNode n.index.level (← childOf n rec)))
  | _, _ => none

/-- A walk at the root. -/
def walkStart (r : Reader) : Walk := r.visit ⟨[], .done []⟩ (r.node r.root)

variable {r : Reader}

theorem walkStep_eq_none {w : Walk} (h : w.run.failure = none → w.frames = []) :
    r.walkStep w = none := by
  unfold walkStep
  split
  · next hf hw => simp [h hf] at hw
  · next hf hw => simp [h hf] at hw
  · rfl

/-- **Some steps of a walk give a run**, and lead back to the pages above unless it fails. -/
def Gives (r : Reader) (w : Walk) (above : List Frame) (run : Run Error Record) : Prop :=
  ∃ u, Reaches r.walkStep w u ∧ u.run = run ∧ (run.failure = none → u.frames = above)

theorem Gives.of_failure {w : Walk} {above : List Frame} {e : Error}
    (h : w.run.failure = some e) : r.Gives w above w.run := by
  refine ⟨w, .refl, rfl, fun hn => ?_⟩
  rw [h] at hn
  cases hn

theorem Gives.head {w u : Walk} {above : List Frame} {run : Run Error Record}
    (h : r.walkStep w = some u) (hu : r.Gives u above run) : r.Gives w above run := by
  obtain ⟨v, hv, hrun⟩ := hu
  exact ⟨v, .head h hv, hrun⟩

/-- **One run after the other**: steps that give a run, and from where they lead another one. -/
theorem Gives.andThen {w : Walk} {above above' : List Frame} {run run' : Run Error Record}
    (h : r.Gives w above run)
    (h' : run.failure = none → r.Gives ⟨above, run⟩ above' (run.andThen run')) :
    r.Gives w above' (run.andThen run') := by
  obtain ⟨u, hu, rfl, habove⟩ := h
  cases hf : u.run.failure with
  | some e =>
    rw [Run.andThen_of_some hf]
    exact ⟨u, hu, rfl, fun hn => by rw [hf] at hn; cases hn⟩
  | none =>
    obtain ⟨v, hv, hrun⟩ := h' hf
    rw [← habove hf] at hv
    exact ⟨v, hu.trans hv, hrun⟩

/-- A walk goes back from a page that has been followed. -/
theorem gives_back (n : Node) (above : List Frame) (run : Run Error Record) :
    r.Gives ⟨⟨n, []⟩ :: above, run⟩ above run := by
  cases hf : run.failure with
  | some e => exact .of_failure hf
  | none =>
    refine .head (u := ⟨above, run⟩) ?_ ⟨_, .refl, rfl, fun _ => rfl⟩
    simp only [walkStep, hf]

/-- **What a walk gives that goes to a page** of a level: the rows below that page. -/
def GivesBelow (r : Reader) (level : Nat) : Prop :=
  ∀ (x : Except Error Node) (above : List Frame) (run : Run Error Record), run.failure = none →
    (∀ n, x = .ok n → n.index.level = level) →
    r.Gives (r.visit ⟨above, run⟩ x) above (run.andThen (.ofExcept x (r.subtree level)))

/-- A page gives what its node pointers give, one after the other. -/
theorem gives_concat {level : Nat} (h : r.GivesBelow level) {n : Node}
    (hl : n.index.level = level + 1) (l : List Record) (above : List Frame)
    {run : Run Error Record} (hrun : run.failure = none) :
    r.Gives ⟨⟨n, l⟩ :: above, run⟩ above (run.andThen (.concat (fun rec =>
      .ofExcept (do r.childNode (level + 1) (← childOf n rec)) (r.subtree level)) l)) := by
  induction l generalizing run with
  | nil =>
    rw [Run.concat, Run.andThen_done_nil]
    exact gives_back ..
  | cons rec rest ih =>
    have hstep : r.walkStep ⟨⟨n, rec :: rest⟩ :: above, run⟩ =
        some (r.visit ⟨⟨n, rest⟩ :: above, run⟩
          (do r.childNode (level + 1) (← childOf n rec))) := by
      simp only [walkStep, hrun, hl]
    have hlevel : ∀ m, (do r.childNode (level + 1) (← childOf n rec)) = .ok m →
        m.index.level = level := by
      intro m hm
      obtain ⟨child, -, hm⟩ := bind_eq_ok.mp hm
      have := (node_of_childNode hm).2
      omega
    rw [Run.concat, ← Run.andThen_assoc]
    exact .head hstep (.andThen (h _ _ _ hrun hlevel) ih)

theorem givesBelow (r : Reader) (level : Nat) : r.GivesBelow level := by
  induction level with
  | zero =>
    intro x above run hrun hx
    cases x with
    | error e => exact .of_failure (e := e) (Run.failure_andThen_of_none hrun)
    | ok n =>
      have hleaf : n.index.isLeaf = true := decide_eq_true (hx n rfl)
      rw [visit, enter, Run.ofExcept, subtree]
      cases r.records n with
      | error e => exact .of_failure (e := e) (Run.failure_andThen_of_none hrun)
      | ok l =>
        simp only [hleaf, if_true]
        exact gives_back ..
  | succ level ih =>
    intro x above run hrun hx
    cases x with
    | error e => exact .of_failure (e := e) (Run.failure_andThen_of_none hrun)
    | ok n =>
      have hl : n.index.level = level + 1 := hx n rfl
      have hleaf : n.index.isLeaf = false := by simp [IndexPage.isLeaf, hl]
      rw [visit, enter, Run.ofExcept, subtree]
      cases r.records n with
      | error e => exact .of_failure (e := e) (Run.failure_andThen_of_none hrun)
      | ok l =>
        have hconcat := gives_concat ih hl l above hrun
        simp only [Run.ofExcept_bind] at hconcat
        simp only [hleaf, Bool.false_eq_true, if_false]
        exact hconcat

/-- **A walk comes to its end**, and has given what a traverse gives. -/
theorem exists_walk (r : Reader) : ∃ w ∈ eval r.walkStep r.walkStart, w.run = r.traverse := by
  have hstart : r.Gives r.walkStart [] r.traverse := by
    unfold walkStart traverse
    cases hn : r.node r.root with
    | error e => exact .of_failure (e := e) rfl
    | ok n => exact givesBelow r n.index.level (.ok n) [] (.done []) rfl (by simp)
  obtain ⟨w, hw, hrun, hframes⟩ := hstart
  rw [← hrun] at hframes
  exact ⟨w, mem_eval.mpr ⟨hw, walkStep_eq_none hframes⟩, hrun⟩

/-- Where a walk fails, so does a traverse. -/
theorem traverse_of_failure {w : Walk} {e : Error} (hw : Reaches r.walkStep r.walkStart w)
    (h : w.run.failure = some e) : r.traverse = w.run := by
  obtain ⟨u, hu, hrun⟩ := r.exists_walk
  have hend : r.walkStep w = none := walkStep_eq_none fun hn => by rw [h] at hn; cases hn
  have hmem : w ∈ eval r.walkStep r.walkStart := mem_eval.mpr ⟨hw, hend⟩
  rw [Part.mem_unique hmem hu, hrun]

end Reader

/-! ### Descents step by step -/

/-- **A descent in progress**: the pages that it has come through, up to the root, and its failure
if there was one. -/
structure Descent where
  pages : List Node
  failure : Option Error

namespace Descent

/-- The pages from the root to the one that a descent is at. -/
def path (d : Descent) : List Node := d.pages.reverse

/-- A descent that goes to a page, if there is one. -/
def goTo (d : Descent) : Except Error Node → Descent
  | .error e => { d with failure := some e }
  | .ok n => { d with pages := n :: d.pages }

/-- A descent is about to go from a page to the child in which the key belongs. -/
def Follows (d : Descent) (r : Reader) (key : Option Key) (aim : Aim) (n : Node) (child : Nat) :
    Prop :=
  d.failure = none ∧ ∃ above, d.pages = n :: above ∧ n.index.isLeaf = false ∧
    r.childFor n key aim = .ok child

/-- The page that a descent is at, or its failure. -/
def outcome (d : Descent) : Option (Except Error Node) :=
  match d.failure with
  | some e => some (.error e)
  | none => d.pages.head?.map .ok

end Descent

namespace Reader
variable {r : Reader} {key : Option Key} {aim : Aim}

/-- **A step of a descent**: on to the child in which the key belongs, which has to lie one level
below. There is none after a failure, or from a leaf. -/
def descentStep (r : Reader) (key : Option Key) (aim : Aim) (d : Descent) : Option Descent :=
  match d.failure, d.pages with
  | none, n :: _ =>
    if n.index.isLeaf then none
    else some (d.goTo (do r.childNode n.index.level (← r.childFor n key aim)))
  | _, _ => none

/-- A descent at the root. -/
def descentStart (r : Reader) : Descent := Descent.goTo ⟨[], none⟩ (r.node r.root)

theorem descentStep_of_failure {d : Descent} {e : Error} (h : d.failure = some e) :
    r.descentStep key aim d = none := by
  unfold descentStep
  split
  · next hf _ => rw [h] at hf; cases hf
  · rfl

theorem exists_descentFrom {level : Nat} {n : Node} (above : List Node)
    (hl : n.index.level = level) : ∃ d ∈ eval (r.descentStep key aim) ⟨n :: above, none⟩,
      d.outcome = some (r.descendFrom key aim level n) := by
  induction level generalizing n above with
  | zero =>
    have hleaf : n.index.isLeaf = true := decide_eq_true hl
    refine ⟨_, mem_eval.mpr ⟨.refl, ?_⟩, rfl⟩
    simp only [descentStep, hleaf, if_true]
  | succ level ih =>
    have hleaf : n.index.isLeaf = false := by simp [IndexPage.isLeaf, hl]
    have hstep : r.descentStep key aim ⟨n :: above, none⟩ = some (Descent.goTo ⟨n :: above, none⟩
        (do r.childNode (level + 1) (← r.childFor n key aim))) := by
      simp only [descentStep, hleaf, Bool.false_eq_true, if_false, hl]
    have hfrom : r.descendFrom key aim (level + 1) n =
        (do r.childNode (level + 1) (← r.childFor n key aim)) >>= r.descendFrom key aim level := by
      rw [descendFrom, bind_assoc]
    rw [reaches_eval (.single hstep), hfrom]
    cases hm : (do r.childNode (level + 1) (← r.childFor n key aim) : Except Error Node) with
    | error e => exact ⟨_, mem_eval.mpr ⟨.refl, descentStep_of_failure rfl⟩, rfl⟩
    | ok m =>
      obtain ⟨child, -, hchild⟩ := bind_eq_ok.mp hm
      have hlevel := (node_of_childNode hchild).2
      exact ih (n :: above) (by omega)

/-- **A descent comes to its end**, at the leaf that a search comes to, or with its failure. -/
theorem exists_descent (r : Reader) (key : Option Key) (aim : Aim) :
    ∃ d ∈ eval (r.descentStep key aim) r.descentStart, d.outcome = some (r.descend key aim) := by
  unfold descentStart descend
  cases hn : r.node r.root with
  | error e => exact ⟨_, mem_eval.mpr ⟨.refl, descentStep_of_failure rfl⟩, rfl⟩
  | ok n => exact exists_descentFrom [] rfl

/-- Where a descent fails, so does a search. -/
theorem descend_of_failure {d : Descent} {e : Error}
    (hd : Reaches (r.descentStep key aim) r.descentStart d) (h : d.failure = some e) :
    r.descend key aim = .error e := by
  obtain ⟨u, hu, hout⟩ := r.exists_descent key aim
  have hmem : d ∈ eval (r.descentStep key aim) r.descentStart :=
    mem_eval.mpr ⟨hd, descentStep_of_failure h⟩
  rw [Part.mem_unique hu hmem, Descent.outcome, h] at hout
  exact (Option.some.inj hout).symm

/-! ### Paths -/

/-- **A path down from the root**, given from its last page up: each page lies one level below the
one that led to it. -/
inductive Path (r : Reader) : List Node → Prop
  | nil : Path r []
  | root {n : Node} (h : r.node r.root = .ok n) : Path r [n]
  | child {n m : Node} {above : List Node} {page : Nat}
      (h : r.childNode n.index.level page = .ok m) (hp : Path r (n :: above)) :
      Path r (m :: n :: above)

namespace Path
variable {n : Node} {above : List Node}

theorem of_cons (h : r.Path (n :: above)) : r.Path above := by
  cases h with
  | root => exact .nil
  | child _ hp => exact hp

/-- A page of a path is the one that its number stands for. -/
theorem node_number {up : List Node} (h : r.Path up) :
    ∀ n ∈ up, r.node n.index.number = .ok n := by
  have number : ∀ {page n}, r.node page = .ok n → r.node n.index.number = .ok n := by
    intro page n hn
    rw [(node_eq_ok hn).2.2.1]
    exact hn
  induction h with
  | nil => simp
  | root h => simpa using number h
  | child h hp ih =>
    intro n hn
    rcases List.mem_cons.mp hn with rfl | hn
    · exact number (node_of_childNode h).1
    · exact ih n hn

/-- The levels of a path grow by one from page to page, up to that of the root. -/
theorem level_add {root : Node} (hroot : r.node r.root = .ok root) {up : List Node}
    (h : r.Path up) :
    ∀ i m, up[i]? = some m → m.index.level + up.length = root.index.level + i + 1 := by
  induction h with
  | nil => simp
  | @root n h =>
    rw [hroot] at h
    cases h
    intro i m hm
    obtain ⟨hi, rfl⟩ := List.getElem?_eq_some_iff.mp hm
    simp only [List.length_singleton] at hi
    simp [Nat.lt_one_iff.mp hi]
  | @child n m above page h hp ih =>
    have hn := ih 0 n rfl
    have hm := (node_of_childNode h).2
    intro i a ha
    cases i with
    | zero =>
      cases ha
      simp only [List.length_cons] at hn ⊢
      omega
    | succ i =>
      have hrest := ih i a ha
      simp only [List.length_cons] at hrest ⊢
      omega

end Path

/-- **What a path from the root looks like**: its pages lie on the levels from that of the root
down, so that it has no more pages than there are such levels, and no page twice. -/
structure Descends (root : Node) (path : List Node) : Prop where
  levels : ∀ i n, path[i]? = some n → n.index.level + i = root.index.level
  length_le : path.length ≤ root.index.level + 1
  distinct : (path.map fun n => n.index.number).Nodup

theorem Path.descends {root : Node} (hroot : r.node r.root = .ok root) {up : List Node}
    (h : r.Path up) : Descends root up.reverse := by
  have levels : ∀ i n, up.reverse[i]? = some n → n.index.level + i = root.index.level := by
    intro i n hn
    have hi : i < up.length := by
      rw [← List.length_reverse]
      exact (List.getElem?_eq_some_iff.mp hn).1
    rw [List.getElem?_reverse hi] at hn
    have hadd := h.level_add hroot _ n hn
    omega
  refine ⟨levels, ?_, ?_⟩
  · rw [List.length_reverse]
    cases up with
    | nil => exact Nat.zero_le _
    | cons n above =>
      have hadd := h.level_add hroot 0 n rfl
      simp only [List.length_cons] at hadd ⊢
      omega
  · refine List.pairwise_map.mpr (List.pairwise_iff_getElem.mpr fun i j hi hj hij heq => ?_)
    -- pages of one number are the same page, and so lie on the same level
    have hnode := fun {k} (hk : k < up.reverse.length) =>
      h.node_number _ (List.mem_reverse.mp (List.getElem_mem hk))
    have hsame : up.reverse[i] = up.reverse[j] := by
      have hi' := hnode hi
      rw [heq, hnode hj] at hi'
      exact (Except.ok.inj hi').symm
    have hli := levels i _ (List.getElem?_eq_getElem hi)
    have hlj := levels j _ (List.getElem?_eq_getElem hj)
    rw [hsame] at hli
    omega

/-- A leaf lies as many pages below the root as the root has levels below it. -/
theorem Descends.length_of_leaf {root leaf : Node} {path : List Node} (h : Descends root path)
    (hmem : leaf ∈ path) (hleaf : leaf.index.isLeaf) : path.length = root.index.level + 1 := by
  obtain ⟨i, hi, rfl⟩ := List.getElem_of_mem hmem
  have hlevel : path[i].index.level = 0 := of_decide_eq_true hleaf
  have hl := h.levels i _ (List.getElem?_eq_getElem hi)
  have hle := h.length_le
  omega

/-! ### The paths of walks and descents -/

theorem path_of_visit {w : Walk} {x : Except Error Node} (hw : r.Path (w.frames.map Frame.node))
    (hx : ∀ n, x = .ok n → r.Path (n :: w.frames.map Frame.node)) :
    r.Path ((r.visit w x).frames.map Frame.node) := by
  cases x with
  | error e => exact hw
  | ok n =>
    rw [visit, enter]
    split
    · exact hx n rfl
    · split
      · exact hx n rfl
      · exact hx n rfl

theorem path_of_childNode {n : Node} {above : List Node} {x : Except Error Nat}
    (hp : r.Path (n :: above)) :
    ∀ m, (do r.childNode n.index.level (← x)) = .ok m → r.Path (m :: n :: above) := by
  intro m hm
  obtain ⟨child, -, hchild⟩ := bind_eq_ok.mp hm
  exact .child hchild hp

theorem path_of_walkStep {w u : Walk} (hw : r.Path (w.frames.map Frame.node))
    (h : r.walkStep w = some u) : r.Path (u.frames.map Frame.node) := by
  obtain ⟨frames, run⟩ := w
  unfold walkStep at h
  split at h
  · next hframes =>
    cases h
    simp only at hframes
    subst hframes
    exact hw.of_cons
  · next hframes =>
    cases h
    simp only at hframes
    subst hframes
    exact path_of_visit hw (path_of_childNode hw)
  · cases h

/-- **A walk is on a path from the root**, at every step. -/
theorem path_of_walk {w : Walk} (h : Reaches r.walkStep r.walkStart w) :
    r.Path (w.frames.map Frame.node) := by
  induction h with
  | refl => exact path_of_visit .nil fun n hn => .root hn
  | tail _ hstep ih => exact path_of_walkStep ih hstep

theorem path_of_goTo {d : Descent} {x : Except Error Node} (hd : r.Path d.pages)
    (hx : ∀ n, x = .ok n → r.Path (n :: d.pages)) : r.Path (d.goTo x).pages := by
  cases x with
  | error e => exact hd
  | ok n => exact hx n rfl

theorem path_of_descentStep {d u : Descent} (hd : r.Path d.pages)
    (h : r.descentStep key aim d = some u) : r.Path u.pages := by
  obtain ⟨pages, failure⟩ := d
  unfold descentStep at h
  split at h
  · next hpages =>
    simp only at hpages
    subst hpages
    split at h
    · cases h
    · cases h
      exact path_of_goTo hd (path_of_childNode hd)
  · cases h

/-- **A descent is on a path from the root**, at every step. -/
theorem path_of_descent {d : Descent} (h : Reaches (r.descentStep key aim) r.descentStart d) :
    r.Path d.pages := by
  induction h with
  | refl => exact path_of_goTo .nil fun n hn => .root hn
  | tail _ hstep ih => exact path_of_descentStep ih hstep

/-! ### Pages at a wrong level -/

theorem childNode_of_level {n m : Node} {child : Nat} (hm : r.node child = .ok m)
    (hl : m.index.level + 1 ≠ n.index.level) : r.childNode n.index.level child =
      .error (.corrupt child (.childLevel m.index.level n.index.level)) := by
  rw [childNode, hm]
  exact if_neg hl

/-- **A walk to a page that is not one level below fails**, and blames that page. -/
theorem all_of_level {w : Walk} {n m : Node} {child : Nat}
    (hw : Reaches r.walkStep r.walkStart w) (hf : w.Follows n child) (hm : r.node child = .ok m)
    (hl : m.index.level + 1 ≠ n.index.level) :
    r.all = .error (.corrupt child (.childLevel m.index.level n.index.level)) := by
  obtain ⟨frames, run⟩ := w
  obtain ⟨hrun, rec, rest, above, hframes, hchild⟩ := hf
  simp only at hrun hframes
  subst hframes
  have hnode : (do r.childNode n.index.level (← childOf n rec)) =
      .error (.corrupt child (.childLevel m.index.level n.index.level)) := by
    rw [hchild]
    exact childNode_of_level hm hl
  have hstep : r.walkStep ⟨⟨n, rec :: rest⟩ :: above, run⟩ = some ⟨⟨n, rest⟩ :: above,
      run.andThen (.fail (.corrupt child (.childLevel m.index.level n.index.level)))⟩ := by
    simp only [walkStep, hrun, hnode]
    rfl
  have hfailure := Run.failure_andThen_of_none (s := Run.fail (α := Record)
    (.corrupt child (.childLevel m.index.level n.index.level))) hrun
  rw [all, traverse_of_failure (hw.tail hstep) hfailure, Run.toExcept, hfailure]
  rfl

/-- **A descent to a page that is not one level below fails**, and blames that page. -/
theorem descend_of_level {d : Descent} {n m : Node} {child : Nat}
    (hd : Reaches (r.descentStep key aim) r.descentStart d) (hf : d.Follows r key aim n child)
    (hm : r.node child = .ok m) (hl : m.index.level + 1 ≠ n.index.level) :
    r.descend key aim =
      .error (.corrupt child (.childLevel m.index.level n.index.level)) := by
  obtain ⟨pages, failure⟩ := d
  obtain ⟨hnone, above, hpages, hleaf, hchild⟩ := hf
  simp only at hnone hpages
  subst hnone hpages
  have hnode : (do r.childNode n.index.level (← r.childFor n key aim)) =
      .error (.corrupt child (.childLevel m.index.level n.index.level)) := by
    rw [hchild]
    exact childNode_of_level hm hl
  have hstep : r.descentStep key aim ⟨n :: above, none⟩ = some ⟨n :: above,
      some (.corrupt child (.childLevel m.index.level n.index.level))⟩ := by
    simp only [descentStep, hleaf, Bool.false_eq_true, if_false, hnode]
    rfl
  exact descend_of_failure (hd.tail hstep) rfl

/-! ### Cycles -/

/-- **A page has a node pointer to another.** -/
def PointsTo (r : Reader) (page child : Nat) : Prop :=
  ∃ n l, r.node page = .ok n ∧ n.index.isLeaf = false ∧ r.records n = .ok l ∧
    ∃ rec ∈ l, rec.child = some child

/-- A page below which a walk does not fail. -/
def Intact (r : Reader) (level page : Nat) : Prop :=
  ∃ n, r.node page = .ok n ∧ n.index.level = level ∧ (r.subtree level n).failure = none

theorem Intact.child {level page child : Nat} (h : r.Intact level page)
    (hp : r.PointsTo page child) : ∃ below, level = below + 1 ∧ r.Intact below child := by
  obtain ⟨n, hn, rfl, hsub⟩ := h
  obtain ⟨n', l, hn', hleaf, hl, rec, hrec, hchild⟩ := hp
  rw [hn] at hn'
  cases hn'
  cases hlevel : n.index.level with
  | zero => simp [IndexPage.isLeaf, hlevel] at hleaf
  | succ below =>
    rw [hlevel, subtree, hl] at hsub
    have hrun := Run.failure_of_concat hsub rec hrec
    simp only [childOf, hchild] at hrun
    obtain ⟨_, hc, hrun⟩ := Run.ok_of_ofExcept hrun
    cases hc
    obtain ⟨m, hm, hrun⟩ := Run.ok_of_ofExcept hrun
    obtain ⟨hm, hml⟩ := node_of_childNode hm
    exact ⟨below, rfl, m, hm, by omega, hrun⟩

/-- Every page below one below which a walk does not fail lies on a lower level. -/
theorem Intact.transGen {level page below : Nat} (h : r.Intact level page)
    (hp : TransGen r.PointsTo page below) : ∃ l < level, r.Intact l below := by
  induction hp with
  | single hp =>
    obtain ⟨l, rfl, hl⟩ := h.child hp
    exact ⟨l, Nat.lt_succ_self l, hl⟩
  | tail _ hp ih =>
    obtain ⟨l, hlt, hl⟩ := ih
    obtain ⟨l', rfl, hl'⟩ := hl.child hp
    exact ⟨l', by omega, hl'⟩

/-- **A full scan fails if there is a cycle below the root.** -/
theorem error_of_cycle {page : Nat} (hroot : ReflTransGen r.PointsTo r.root page)
    (hcycle : TransGen r.PointsTo page page) : ∃ e, r.all = .error e := by
  cases hf : r.traverse.failure with
  | some e => exact ⟨e, by rw [all, Run.toExcept, hf]⟩
  | none =>
    obtain ⟨n, hn, hsub⟩ := Run.ok_of_ofExcept hf
    have hintact : r.Intact n.index.level r.root := ⟨n, hn, rfl, hsub⟩
    obtain ⟨level, hpage⟩ : ∃ level, r.Intact level page := by
      rcases reflTransGen_iff_eq_or_transGen.mp hroot with rfl | hbelow
      · exact ⟨_, hintact⟩
      · obtain ⟨level, -, h⟩ := hintact.transGen hbelow
        exact ⟨level, h⟩
    -- the page would lie below itself
    obtain ⟨below, hlt, hagain⟩ := hpage.transGen hcycle
    obtain ⟨m, hm, hml, -⟩ := hpage
    obtain ⟨m', hm', hml', -⟩ := hagain
    rw [hm] at hm'
    cases hm'
    omega

/-- **Walks and descents end**, whatever pages the node pointers lead to. -/
theorem paths_end (r : Reader) :
    (∃ w ∈ eval r.walkStep r.walkStart, w.run = r.traverse) ∧
    (∀ key aim, ∃ d ∈ eval (r.descentStep key aim) r.descentStart,
      d.outcome = some (r.descend key aim)) ∧
    (∀ root, r.node r.root = .ok root →
      (∀ w, Reaches r.walkStep r.walkStart w → Descends root w.path ∧
        ∀ leaf ∈ w.path, leaf.index.isLeaf → w.path.length = root.index.level + 1) ∧
      ∀ key aim d, Reaches (r.descentStep key aim) r.descentStart d → Descends root d.path) ∧
    (∀ n m child, r.node child = .ok m → m.index.level + 1 ≠ n.index.level →
      (∀ w, Reaches r.walkStep r.walkStart w → w.Follows n child →
        r.all = .error (.corrupt child (.childLevel m.index.level n.index.level))) ∧
      ∀ key aim d, Reaches (r.descentStep key aim) r.descentStart d → d.Follows r key aim n child →
        r.descend key aim =
          .error (.corrupt child (.childLevel m.index.level n.index.level))) ∧
    ∀ page, ReflTransGen r.PointsTo r.root page → TransGen r.PointsTo page page →
      ∃ e, r.all = .error e := by
  refine ⟨r.exists_walk, r.exists_descent,
    fun root hroot => ⟨fun w hw => ?_, fun key aim d hd => ?_⟩,
    fun n m child hm hl => ⟨fun w hw hf => all_of_level hw hf hm hl,
      fun key aim d hd hf => descend_of_level hd hf hm hl⟩,
    fun page => error_of_cycle⟩
  · have hpath : Descends root w.path := (path_of_walk hw).descends hroot
    refine ⟨hpath, fun leaf hmem hleaf => ?_⟩
    exact hpath.length_of_leaf hmem hleaf
  · exact (path_of_descent hd).descends hroot

/-- The tree of two leaves with its first node pointer led back to the root, which fails. -/
theorem paths_end_cycle : ∃ e,
    (TwoLeaves.patched (3 * pageSize + 129) [0, 0, 0, 3]).PointsTo 3 3 ∧
    (TwoLeaves.patched (3 * pageSize + 129) [0, 0, 0, 3]).all = .error e := by
  have hroot : (TwoLeaves.patched (3 * pageSize + 129) [0, 0, 0, 3]).root = 3 := rfl
  generalize hr : TwoLeaves.patched (3 * pageSize + 129) [0, 0, 0, 3] = r at hroot ⊢
  have hchildren : (do
      let n ← r.node 3
      let l ← r.records n
      return (n.index.isLeaf, l.map Record.child)) = .ok (false, [some 3, some 5]) := by
    rw [← hr]
    decide +kernel
  obtain ⟨n, hn, h⟩ := bind_eq_ok.mp hchildren
  obtain ⟨l, hl, h⟩ := bind_eq_ok.mp h
  obtain ⟨hleaf, hmap⟩ := Prod.mk.inj (pure_eq_ok.mp h)
  obtain ⟨rec, hrec, hchild⟩ := List.mem_map.mp (hmap ▸ List.mem_cons_self :
    some 3 ∈ l.map Record.child)
  have hcycle : r.PointsTo 3 3 := ⟨n, l, hn, hleaf, hl, rec, hrec, hchild⟩
  obtain ⟨e, he⟩ := (paths_end r).2.2.2.2 3 (by rw [hroot]) (.single hcycle)
  exact ⟨e, hcycle, he⟩

end Reader
end Tablespace
