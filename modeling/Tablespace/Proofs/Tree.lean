import Tablespace.Proofs.Chain

/-! # The tree of an index

From the root down, each page of a tree has a listing and lies one level below the page that leads
to it, until a level of leaves is reached. A node pointer parts the rows of the leaves: those to its
left are below its key, and those that it leads to are not, unless it is the first of its page. Then
the rows of all leaves ascend from left to right.

* `leavesOf`, `rowsOf`: the leaves among the pages of a tree, and their records.
* `Reader.Subtree`: the pages below a page of a level.
* `Reader.WellFormed`: a tree whose directories are in order and whose leaves are linked.
* `Reader.Subtree.rows_ascending`: the keys of all rows strictly ascend. -/

namespace Tablespace

/-! ### Leaves and rows -/

/-- The leaves among some pages. -/
def leavesOf (xs : List Listing) : List Listing := xs.filter fun x => x.node.index.isLeaf

/-- **The rows of some pages**: the user records of their leaves. -/
def rowsOf (xs : List Listing) : List Record := (leavesOf xs).flatMap Listing.records

/-- A key of some pages: of a row, or of a node pointer. -/
def HasKey (xs : List Listing) (k : Key) : Prop := ∃ x ∈ xs, ∃ a ∈ x.records, a.key = k

theorem leavesOf_flatMap (below : List (Record × List Listing)) :
    leavesOf (below.flatMap Prod.snd) = below.flatMap fun b => leavesOf b.2 :=
  List.filter_flatMap

theorem leavesOf_cons {x : Listing} {xs : List Listing} {level : Nat}
    (h : x.node.index.level = level + 1) : leavesOf (x :: xs) = leavesOf xs := by
  refine List.filter_cons_of_neg ?_
  simp [IndexPage.isLeaf, h]

theorem mem_rowsOf_flatMap {below : List (Record × List Listing)} {row : Record} :
    row ∈ rowsOf (below.flatMap Prod.snd) ↔ ∃ b ∈ below, row ∈ rowsOf b.2 := by
  unfold rowsOf
  rw [leavesOf_flatMap, List.flatMap_assoc, List.mem_flatMap]

theorem rowsOf_singleton {x : Listing} (h : x.node.index.level = 0) : rowsOf [x] = x.records := by
  simp [rowsOf, leavesOf, IndexPage.isLeaf, h]

theorem rowsOf_branch {x : Listing} {level : Nat} (h : x.node.index.level = level + 1)
    (below : List (Record × List Listing)) :
    rowsOf (x :: below.flatMap Prod.snd) = below.flatMap fun b => rowsOf b.2 := by
  unfold rowsOf
  rw [leavesOf_cons h, leavesOf_flatMap, List.flatMap_assoc]

theorem hasKey_of_mem_rowsOf {xs : List Listing} {a : Record} (h : a ∈ rowsOf xs) :
    HasKey xs a.key := by
  obtain ⟨x, hx, ha⟩ := List.mem_flatMap.mp h
  exact ⟨x, (List.mem_filter.mp hx).1, a, ha, rfl⟩

theorem HasKey.mono {xs ys : List Listing} (h : xs ⊆ ys) {k : Key} : HasKey xs k → HasKey ys k :=
  fun ⟨x, hx, ha⟩ => ⟨x, h hx, ha⟩

/-! ### Trees -/

/-- **A node pointer parts the rows** to its left from those that it leads to. -/
def Apart (a b : Record × List Listing) : Prop :=
  (∀ row ∈ rowsOf a.2, compareKeys row.key b.1.key = .lt) ∧
    ∀ row ∈ rowsOf b.2, compareKeys row.key b.1.key ≠ .lt

instance (a b : Record × List Listing) : Decidable (Apart a b) :=
  inferInstanceAs (Decidable (_ ∧ _))

/-- **The pages below a page of a level**, itself the first of them: a leaf, or a page with node
pointers and the pages below their children. -/
inductive Reader.Subtree (r : Reader) : (level page : Nat) → List Listing → Prop
  | leaf {page : Nat} {x : Listing} (node : r.node page = .ok x.node)
      (hlevel : x.node.index.level = 0) (lists : r.Lists x) : Subtree r 0 page [x]
  | branch {level page : Nat} {x : Listing} {below : List (Record × List Listing)}
      (node : r.node page = .ok x.node) (hlevel : x.node.index.level = level + 1)
      (lists : r.Lists x) (pointers : x.records = below.map Prod.fst) (hsome : below ≠ [])
      (apart : below.IsChain Apart)
      (children : ∀ b ∈ below, ∀ child, b.1.child = some child → Subtree r level child b.2) :
      Subtree r (level + 1) page (x :: below.flatMap Prod.snd)

/-- **The pages of a tree**, from the root down. -/
def Reader.Tree (r : Reader) (xs : List Listing) : Prop := ∃ level, r.Subtree level r.root xs

/-- **A well-formed tree**: the directory of each page is in order, and the leaves are distinct
pages, each linked to the one on its right. -/
structure Reader.WellFormed (r : Reader) (xs : List Listing) : Prop where
  tree : r.Tree xs
  slotted : ∀ x ∈ xs, x.Slotted
  distinct : ((leavesOf xs).map fun x => x.node.index.number).Nodup
  linked : (leavesOf xs).IsChain fun x y => x.node.index.next = some y.node.index.number
  last : ∀ x ∈ (leavesOf xs).getLast?, x.node.index.next = none

/-! ### A tree of two leaves -/

namespace TwoLeaves

/-- The byte at an offset of a page, given by pieces of it; all other bytes are zero. -/
def byteOfPieces : List (Nat × List UInt8) → Nat → UInt8
  | [], _ => 0
  | (start, l) :: pieces, i =>
    if start ≤ i ∧ i < start + l.length then l.getD (i - start) 0 else byteOfPieces pieces i

/-- The pieces of an index page but for its user records. -/
def frame (number level heapTop : UInt8) (next : List UInt8) : List (Nat × List UInt8) :=
  [(4, [0, 0, 0, number, 0xFF, 0xFF, 0xFF, 0xFF] ++ next), (24, [0x45, 0xBF]),
   (38, [0, 2, 0, heapTop, 0x80, 4]), (54, [0, 2]), (65, [level]), (73, [7]),
   (94, [1, 0, 2, 0, 26] ++ IndexPage.infimumLiteral),
   (107, [3, 0, 11, 0, 0] ++ IndexPage.supremumLiteral), (16372, [0, 112, 0, 99])]

/-- The root is page 3 and points to the pages 4 and 5. The first node pointer is above the first
row, and the third row is marked as deleted. -/
def piecesOf : Nat → List (Nat × List UInt8)
  | 3 => frame 3 1 146 [0xFF, 0xFF, 0xFF, 0xFF] ++
    [(120, [0x10, 0, 0x11, 0, 13, 0x80, 0, 0, 2, 0, 0, 0, 4]),
     (133, [0, 0, 0x19, 0xFF, 0xE6, 0x80, 0, 0, 5, 0, 0, 0, 5])]
  | 4 => frame 4 0 164 [0, 0, 0, 5] ++
    [(120, [0, 0, 0x10, 0, 22, 0x80, 0, 0, 1]), (142, [0, 0, 0x18, 0xFF, 0xDD, 0x80, 0, 0, 3])]
  | 5 => frame 5 0 164 [0xFF, 0xFF, 0xFF, 0xFF] ++
    [(120, [0x20, 0, 0x10, 0, 22, 0x80, 0, 0, 5]), (142, [0, 0, 0x18, 0xFF, 0xDD, 0x80, 0, 0, 7])]
  | _ => []

/-- The image of the tree. -/
def image : Image where
  data :=
    { size := 6 * pageSize
      byte := fun i => byteOfPieces (piecesOf (i / pageSize)) (i % pageSize) }
  verifyChecksums := false

/-- A reader of the image, whatever the table. -/
def readerOf (codec : Codec) : Reader :=
  { image, codec, options := .default, root := 3, indexId := 7 }

/-- The reader of a table whose only column is an integer, its key. -/
def reader : Reader :=
  let table : Table := { name := "t", columns := [.ofType "id" .int], primaryKey := ["id"] }
  readerOf { table, layout := Layout.of table, timestampOffset := 0 }

/-- The reader of the tree after some bytes of its image are written over. -/
def patched (offset : Nat) (bytes : List UInt8) : Reader :=
  { reader with
    image := { image with
      data := { image.data with
        byte := fun i => if offset ≤ i ∧ i < offset + bytes.length then bytes.getD (i - offset) 0
          else image.data.byte i } } }

/-- A page of the tree. -/
def node (page level heapTop nextField : Nat) : Node where
  page :=
    { number := page
      header :=
        { checksum := 0, number := page, prevField := noPage, nextField, lsn := 0, kind := .index
          flushLsn := 0, spaceId := 0 }
      trailer := { checksum := 0, lsnLow := 0 }
      data := image.data.slice (page * pageSize) pageSize
      size_data := rfl }
  index :=
    { number := page
      header :=
        { slots := 2, heapTop, heapField := 0x8004, free := 0, garbage := 0, lastInsert := 0
          direction := 0, directionRun := 0, records := 2, maxTransaction := 0, level
          indexId := 7 }
      leafSegment := { spaceId := 0, page := 0, offset := 0 }
      internalSegment := { spaceId := 0, page := 0, offset := 0 }
      prev := none
      next := pageLink nextField
      slots := #[99, 112] }

/-- A record of a page, and how far away the next one is. -/
def record (page origin heapNumber : Nat) (status : Status) (next : Int) : Record where
  page
  origin
  header := { owned := 0, deleted := false, leftmost := false, heapNumber, status, next }
  key := []
  values := []
  transactionId := none
  rollPointer := none
  child := none

/-- A row of a page. -/
def row (page origin heapNumber : Nat) (next key : Int) : Record :=
  { record page origin heapNumber .ordinary next with
    key := [.int key], values := [.int key], transactionId := some 0, rollPointer := some 0 }

/-- A node pointer of the root. -/
def pointer (origin heapNumber : Nat) (next key : Int) (child : Nat) : Record :=
  { record 3 origin heapNumber .nodePointer next with key := [.int key], child := some child }

/-- A page of the tree and its records. -/
def listing (page level heapTop nextField : Nat) (records : List Record) : Listing where
  node := node page level heapTop nextField
  infimum := { record page 99 0 .infimum 26 with header.owned := 1 }
  records
  supremum := { record page 112 1 .supremum 0 with header.owned := 3 }

/-- The root. -/
def root : Listing :=
  listing 3 1 146 noPage
    [{ pointer 125 2 13 2 4 with header.leftmost := true }, pointer 138 3 (-26) 5 5]

/-- The leaf on the left. -/
def left : Listing := listing 4 0 164 5 [row 4 125 2 22 1, row 4 147 3 (-35) 3]

/-- The leaf on the right. -/
def right : Listing :=
  listing 5 0 164 noPage [{ row 5 125 2 22 5 with header.deleted := true }, row 5 147 3 (-35) 7]

theorem node_root (codec : Codec) : (readerOf codec).node 3 = .ok root.node := by cbv

theorem node_left (codec : Codec) : (readerOf codec).node 4 = .ok left.node := by cbv

theorem node_right (codec : Codec) : (readerOf codec).node 5 = .ok right.node := by cbv

theorem subtree_left : reader.Subtree 0 4 [left] := .leaf (node_left _) rfl (by decide +kernel)

theorem subtree_right : reader.Subtree 0 5 [right] := .leaf (node_right _) rfl (by decide +kernel)

theorem subtree_root : reader.Subtree 1 3 [root, left, right] := by
  refine @Reader.Subtree.branch reader 0 3 root
    [({ pointer 125 2 13 2 4 with header.leftmost := true }, [left]),
     (pointer 138 3 (-26) 5 5, [right])]
    (node_root _) rfl (by decide +kernel) rfl (by simp) ?_ fun b hb child hc => ?_
  · exact List.isChain_pair.mpr (by decide)
  · rcases List.mem_pair.mp hb with rfl | rfl
    · cases hc; exact subtree_left
    · cases hc; exact subtree_right

theorem wellFormed : reader.WellFormed [root, left, right] where
  tree := ⟨1, subtree_root⟩
  slotted := by decide
  distinct := by decide
  linked := by decide
  last := by decide

/-- The keys of the tree compare well, as do those and other integers. -/
theorem orderedOn {K : Key → Prop} (h : ∀ k, K k → ∀ v ∈ k, ∃ n, v = .int n) :
    Key.OrderedOn fun k => HasKey [root, left, right] k ∨ K k := by
  refine Key.orderedOn_int.mono fun k hk => hk.elim (fun ⟨x, hx, a, ha, e⟩ => ?_) (h k)
  subst e
  have hall : ∀ x ∈ [root, left, right], ∀ a ∈ x.records, ∃ n, a.key = [.int n] := by
    simp [root, left, right, listing, pointer, row]
  obtain ⟨n, e⟩ := hall x hx a ha
  simp [e]

end TwoLeaves

/-! ### Pages with node pointers -/

theorem subset_branch {x : Listing} {below : List (Record × List Listing)}
    {b : Record × List Listing} (hb : b ∈ below) : b.2 ⊆ x :: below.flatMap Prod.snd :=
  fun _ hy => List.mem_cons_of_mem _ (List.mem_flatMap.mpr ⟨b, hb, hy⟩)

theorem hasKey_row {x : Listing} {below : List (Record × List Listing)}
    {b : Record × List Listing} (hb : b ∈ below) {row : Record} (hrow : row ∈ rowsOf b.2) :
    HasKey (x :: below.flatMap Prod.snd) row.key :=
  (hasKey_of_mem_rowsOf hrow).mono (subset_branch hb)

theorem pairwise_apart_of_isChain {K : Key → Prop}
    {below : List (Record × List Listing)} (ho : Key.OrderedOn K)
    (hK : ∀ b ∈ below, K b.1.key ∧ ∀ row ∈ rowsOf b.2, K row.key) (h : below.IsChain Apart)
    (hp : (below.map Prod.fst).Pairwise fun a b => compareKeys a.key b.key = .lt) :
    below.Pairwise Apart := by
  induction below with
  | nil => exact .nil
  | cons a l ih =>
    rw [List.map_cons, List.pairwise_cons] at hp
    have hl := ih (fun b hb => hK b (by simp [hb])) h.of_cons hp.2
    refine List.pairwise_cons.mpr ⟨fun c hc => ?_, hl⟩
    cases l with
    | nil => cases hc
    | cons b l =>
      have hab := (List.isChain_cons_cons.mp h).1
      rcases List.mem_cons.mp hc with rfl | hc
      · exact hab
      · have hbc : compareKeys b.1.key c.1.key = .lt :=
          List.rel_of_pairwise_cons hp.2 (List.mem_map_of_mem hc)
        refine ⟨fun row hrow => ?_, (List.rel_of_pairwise_cons hl hc).2⟩
        exact compareKeys_of_lt_of_le ho ((hK a (by simp)).2 row hrow) (hK b (by simp)).1
          (hK c (by simp [hc])).1 (hab.1 row hrow) (Or.inl hbc)

/-- **A page with node pointers**, and the pages below each of them. -/
structure Reader.Branches (r : Reader) (level page : Nat) (x : Listing)
    (below : List (Record × List Listing)) : Prop where
  node : r.node page = .ok x.node
  level_eq : x.node.index.level = level + 1
  lists : r.Lists x
  pointers : x.records = below.map Prod.fst
  ne_nil : below ≠ []
  apart : below.IsChain Apart
  children : ∀ b ∈ below, ∀ child, b.1.child = some child → r.Subtree level child b.2

namespace Reader.Branches
variable {r : Reader} {level page : Nat} {x : Listing} {below : List (Record × List Listing)}
variable {K : Key → Prop} {b : Record × List Listing}

theorem mem_records (h : r.Branches level page x below) (hb : b ∈ below) : b.1 ∈ x.records := by
  rw [h.pointers]
  exact List.mem_map_of_mem hb

theorem hasKey_pointer (h : r.Branches level page x below) (hb : b ∈ below) :
    HasKey (x :: below.flatMap Prod.snd) b.1.key := ⟨x, by simp, b.1, h.mem_records hb, rfl⟩

theorem length_pointer (h : r.Branches level page x below) (hb : b ∈ below) :
    b.1.key.length = r.keyLength := h.lists.length_key (h.mem_records hb)

theorem exists_child (h : r.Branches level page x below) {a : Record} (ha : a ∈ x.records) :
    ∃ child, a.child = some child := by
  have hd := h.lists.decoded a (Lists.mem_chain ha)
  have hi : x.node.index.isLeaf = false := by simp [IndexPage.isLeaf, h.level_eq]
  unfold decodeAt at hd
  rw [hi] at hd
  exact Codec.exists_child_of_read hd (h.lists.user a ha)

theorem exists_below (h : r.Branches level page x below) (hb : b ∈ below) :
    ∃ child, b.1.child = some child ∧ r.Subtree level child b.2 := by
  obtain ⟨child, e⟩ := h.exists_child (h.mem_records hb)
  exact ⟨child, e, h.children b hb child e⟩

/-- Node pointers part the rows of all children to their left from those that they lead to. -/
theorem pairwise_apart (h : r.Branches level page x below) (ho : Key.OrderedOn K)
    (hK : ∀ k, HasKey (x :: below.flatMap Prod.snd) k → K k) : below.Pairwise Apart := by
  refine pairwise_apart_of_isChain ho (fun b hb => ⟨?_, fun row hrow => ?_⟩) h.apart
    (h.pointers ▸ h.lists.ascending)
  · exact hK _ (h.hasKey_pointer hb)
  · exact hK _ (hasKey_row hb hrow)

end Reader.Branches

/-! ### The pages of a subtree -/

namespace Reader.Subtree
variable {r : Reader} {level page : Nat} {xs : List Listing} {K : Key → Prop}

theorem lists (h : r.Subtree level page xs) : ∀ x ∈ xs, r.Lists x := by
  induction h with
  | leaf _ _ hl => simpa using hl
  | branch node hlevel hl hp hne ha hc ih =>
    have hbr : r.Branches _ _ _ _ := ⟨node, hlevel, hl, hp, hne, ha, hc⟩
    intro y hy
    rcases List.mem_cons.mp hy with rfl | hy
    · exact hl
    · obtain ⟨b, hb, hy⟩ := List.mem_flatMap.mp hy
      obtain ⟨child, e, -⟩ := hbr.exists_below hb
      exact ih b hb child e y hy

theorem node_eq_ok (h : r.Subtree level page xs) :
    ∀ x ∈ xs, r.node x.node.index.number = .ok x.node := by
  induction h with
  | leaf node _ _ =>
    rintro _ (_ | ⟨_, ⟨⟩⟩)
    rwa [(Reader.node_eq_ok node).2.2.1]
  | branch node hlevel hl hp hne ha hc ih =>
    have hbr : r.Branches _ _ _ _ := ⟨node, hlevel, hl, hp, hne, ha, hc⟩
    intro y hy
    rcases List.mem_cons.mp hy with rfl | hy
    · rwa [(Reader.node_eq_ok node).2.2.1]
    · obtain ⟨b, hb, hy⟩ := List.mem_flatMap.mp hy
      obtain ⟨child, e, -⟩ := hbr.exists_below hb
      exact ih b hb child e y hy

theorem length_key (h : r.Subtree level page xs) {a : Record} (ha : a ∈ rowsOf xs) :
    a.key.length = r.keyLength := by
  obtain ⟨x, hx, ha⟩ := List.mem_flatMap.mp ha
  exact (h.lists x (List.mem_filter.mp hx).1).length_key ha

/-- **The keys of all rows strictly ascend**, from leaf to leaf as on each leaf. -/
theorem rows_ascending (h : r.Subtree level page xs) (ho : Key.OrderedOn K)
    (hK : ∀ k, HasKey xs k → K k) :
    (rowsOf xs).Pairwise fun a b => compareKeys a.key b.key = .lt := by
  induction h with
  | leaf _ hlevel hl =>
    rw [rowsOf_singleton hlevel]
    exact hl.ascending
  | branch node hlevel hl hp hne ha hc ih =>
    have hbr : r.Branches _ _ _ _ := ⟨node, hlevel, hl, hp, hne, ha, hc⟩
    rw [rowsOf_branch hlevel]
    refine List.pairwise_flatMap.mpr ⟨fun b hb => ?_, ?_⟩
    · obtain ⟨child, e, -⟩ := hbr.exists_below hb
      exact ih b hb child e fun k hk => hK k (hk.mono (subset_branch hb))
    · -- the pointer to the rows on the right stands between the two
      refine (hbr.pairwise_apart ho hK).imp_of_mem fun {b c} hb hc' hbc a ha d hd => ?_
      obtain ⟨child, e, hsub⟩ := hbr.exists_below hc'
      refine compareKeys_of_lt_of_not_lt ho (hK _ (hasKey_row hb ha))
        (hK _ (hbr.hasKey_pointer hc')) (hK _ (hasKey_row hc' hd)) ?_ (hbc.1 a ha) (hbc.2 d hd)
      rw [hbr.length_pointer hc', hsub.length_key hd]

end Reader.Subtree
end Tablespace
