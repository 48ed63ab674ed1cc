import Mathlib.Data.List.TakeWhile
import Tablespace.Column.Basic
import Tablespace.Proofs.Loading

/-! # Types as text

Reading the text of a type gives the type back, whatever its elements hold: a text is cut at its
first `(` and its last `)`, and neither a parenthesis nor a comma within quotes is taken for one
that stands between arguments. The text ends in no letter that `unsigned` ends in, so that the word
after a type is told from the type itself.

* `ColumnType.Declared`: the types that can be declared; `ColumnType.declared_of_parse`: nothing
  else is read.
* `ColumnType.readElements_quoteElements`: reading elements undoes quoting them.
* `ColumnType.Spelled`: a text is a name alone or a name with arguments; `ColumnType.spelled`: so is
  the text of each type.
* `Column.reads_back`: a type is read back from its text, and from its text with `unsigned`. -/

namespace Tablespace

/-! ### Texts without blanks at their ends -/

namespace Text.Bare
variable {cs : List Char}

theorem trim_append_blank (h : Bare cs) (hne : cs ≠ []) {c : Char} (hc : isBlank c = true) :
    trim (cs ++ [c]) = cs := by
  have hhead : ∀ a ∈ (cs ++ [c]).head?, isBlank a = false := by
    intro a ha
    rw [List.head?_append_of_ne_nil _ hne] at ha
    exact h.head a ha
  have hlast : dropEndWhile isBlank (cs ++ [c]) = dropEndWhile isBlank cs := by
    unfold dropEndWhile
    rw [List.reverse_append, List.reverse_singleton, List.singleton_append,
      List.dropWhile_cons_of_pos hc]
  unfold trim
  rw [dropWhile_eq_self hhead, hlast, dropEndWhile_eq_self h.last]

theorem append {a b : List Char} (ha : Bare a) (hb : Bare b) (hna : a ≠ []) (hnb : b ≠ [])
    (mid : List Char) : Bare (a ++ (mid ++ b)) := by
  constructor
  · intro c hc
    rw [List.head?_append_of_ne_nil _ hna] at hc
    exact ha.head c hc
  · intro c hc
    rw [← List.append_assoc, List.getLast?_append_of_ne_nil _ hnb] at hc
    exact hb.last c hc

theorem intercalate (sep : List Char) {parts : List (List Char)} (hne : parts ≠ [])
    (h : ∀ p ∈ parts, Bare p ∧ p ≠ []) :
    Bare (sep.intercalate parts) ∧ sep.intercalate parts ≠ [] := by
  induction parts with
  | nil => exact absurd rfl hne
  | cons p parts ih =>
    obtain ⟨hp, hnp⟩ := h p List.mem_cons_self
    cases parts with
    | nil =>
      rw [List.intercalate_singleton]
      exact ⟨hp, hnp⟩
    | cons q parts =>
      obtain ⟨hq, hnq⟩ := ih (List.cons_ne_nil _ _) fun p hp => h p (List.mem_cons_of_mem _ hp)
      rw [List.intercalate_cons_cons, List.append_assoc]
      exact ⟨hp.append hq hnp hnq sep, by simp [hnp]⟩

end Text.Bare

namespace ColumnType
variable {t : ColumnType} {name : String} {numbers : List Nat} {cs inside : List Char}

open Text (isBlank trim lower Bare)
open Numeral (digits maxWord)

/-! ### What the reader makes sure of -/

/-- **Types that can be declared.** Elements may be any texts. -/
def Declared : ColumnType → Prop
  | .decimal p s => 0 < p ∧ p ≤ 65 ∧ s ≤ 30 ∧ s ≤ p
  | .dateTime n | .timestamp n | .time n => n ≤ 6
  | .char n | .varChar n | .binary n | .varBinary n => n ≤ maxWord
  | .set l => l.length ≤ 64
  | .bit n => 0 < n ∧ n ≤ 64
  | _ => True

theorem readFraction_eq_ok {n m : Nat} : readFraction n = .ok m ↔ n ≤ 6 ∧ n = m := by
  unfold readFraction
  by_cases hn : n ≤ 6
  · simp [hn]
  · simp [hn]

theorem mem_of_readLength {n : Nat} (h : readLength name numbers = .ok n) : n ∈ numbers := by
  unfold readLength at h
  split at h
  · cases h
    exact List.mem_cons_self
  · cases h

/-- **What a name stands for can be declared** if its numbers are words. -/
theorem declared_of_ofName (hn : ∀ n ∈ numbers, n ≤ maxWord)
    (h : ofName name numbers inside = .ok t) : t.Declared := by
  have hfirst : numbers.head?.getD 1 ≤ maxWord := by
    cases numbers with
    | nil => decide
    | cons n ns => exact hn n List.mem_cons_self
  unfold ofName at h
  simp only at h
  -- one case for each name, in the order of the reader; most names stand for one type
  split at h
  case h_10 | h_11 =>
    -- decimals
    split at h
    · cases h
    · cases h
      unfold Declared
      omega
  case h_13 | h_14 | h_15 =>
    -- dates and times with a fraction
    obtain ⟨m, hm, rfl⟩ := map_eq_ok.mp h
    obtain ⟨hle, rfl⟩ := readFraction_eq_ok.mp hm
    exact hle
  case h_17 | h_19 =>
    -- lengths that may be left out
    cases h
    exact hfirst
  case h_18 | h_20 =>
    -- lengths that may not
    obtain ⟨m, hm, rfl⟩ := map_eq_ok.mp h
    exact hn m (mem_of_readLength hm)
  case h_30 =>
    -- enumerations
    obtain ⟨l, -, rfl⟩ := map_eq_ok.mp h
    trivial
  case h_31 =>
    -- sets
    obtain ⟨l, -, h⟩ := bind_eq_ok.mp h
    split at h
    · next hl =>
      cases h
      exact hl
    · cases h
  case h_32 =>
    -- bits
    split at h
    · cases h
    · cases h
      unfold Declared
      omega
  all_goals
    cases h
    try trivial

theorem le_of_readArgument {n : Nat} (h : readArgument cs = .ok n) : n ≤ maxWord := by
  unfold readArgument at h
  split at h
  · next m hm =>
    cases h
    unfold Numeral.unsigned? at hm
    obtain ⟨m, -, hm⟩ := Option.bind_eq_some_iff.mp hm
    split at hm
    · next hle =>
      cases hm
      exact hle
    · cases hm
  · cases h

/-- The numbers of a name: elements are none, and a name alone has none. -/
def readNumbers (name : String) (arguments : Option (List Char)) : Except Error (List Nat) :=
  if name = "enum" ∨ name = "set" then .ok []
  else match arguments with
    | none => .ok []
    | some cs => readArguments cs

theorem readNumbers_none : readNumbers name none = .ok [] := by
  unfold readNumbers
  split <;> rfl

theorem le_of_readNumbers {arguments : Option (List Char)}
    (h : readNumbers name arguments = .ok numbers) : ∀ n ∈ numbers, n ≤ maxWord := by
  intro n hn
  unfold readNumbers at h
  split at h
  · cases h
    cases hn
  · split at h
    · cases h
      cases hn
    · obtain ⟨a, -, ha⟩ := exists_of_forall₂_right (mapM_eq_ok_iff.mp h) hn
      exact le_of_readArgument ha

/-- A type is read in three steps: its parts, its numbers, and what they stand for. -/
theorem parse_eq_bind (text : List Char) :
    parse text = splitParentheses (trim text) >>= fun parts =>
      readNumbers (String.ofList (lower parts.1)) parts.2 >>= fun numbers =>
        ofName (String.ofList (lower parts.1)) numbers (parts.2.getD []) := by
  unfold parse readNumbers
  congr 1
  funext ⟨base, arguments⟩
  simp only
  split
  · rfl
  · cases arguments <;> rfl

/-- **What is read from a text can be declared.** -/
theorem declared_of_parse (h : parse cs = .ok t) : t.Declared := by
  rw [parse_eq_bind] at h
  obtain ⟨parts, -, h⟩ := bind_eq_ok.mp h
  obtain ⟨numbers, hnumbers, h⟩ := bind_eq_ok.mp h
  exact declared_of_ofName (le_of_readNumbers hnumbers) h

/-! ### Elements -/

/-- The reader of an element goes on behind the element. -/
theorem readElements_inside (cs read rest : List Char) :
    readElements (.inside read)
        (cs.flatMap (fun c => if c = '\x27' then ['\x27', '\x27'] else [c]) ++ '\x27' :: rest) =
      readElements (.quote (cs.reverse ++ read)) rest := by
  induction cs generalizing read with
  | nil =>
    rw [List.flatMap_nil, List.nil_append, readElements, if_pos rfl]
    rfl
  | cons c cs ih =>
    rw [List.flatMap_cons, List.reverse_cons, List.append_assoc, List.append_assoc,
      List.singleton_append, ← ih]
    by_cases hc : c = '\x27'
    · rw [if_pos hc, List.cons_append, List.cons_append, List.nil_append, readElements, if_pos rfl,
        readElements, if_pos rfl, hc]
    · rw [if_neg hc, List.cons_append, List.nil_append, readElements, if_neg hc]

theorem readElements_quoteElement (s : String) (rest : List Char) :
    readElements .before (quoteElement s ++ rest) =
      readElements (.quote s.toList.reverse) rest := by
  unfold quoteElement
  rw [List.cons_append, List.cons_append, List.append_assoc, List.singleton_append, readElements,
    if_pos rfl, readElements_inside, List.append_nil]

theorem toList_quoteElements (l : List String) :
    (quoteElements l).toList = [','].intercalate (l.map quoteElement) :=
  String.toList_ofList

/-- **Reading elements undoes quoting them.** A quote in an element is doubled, so that a single one
ends it, whatever else the element holds. -/
theorem readElements_quoteElements (l : List String) :
    readElements .before (quoteElements l).toList = .ok l := by
  have hread : ∀ s : String, String.ofList s.toList.reverse.reverse = s := by
    intro s
    rw [List.reverse_reverse, String.ofList_toList]
  rw [toList_quoteElements]
  induction l with
  | nil => rfl
  | cons s l ih =>
    cases l with
    | nil =>
      rw [List.map_singleton, List.intercalate_singleton, ← List.append_nil (quoteElement s),
        readElements_quoteElement, readElements, hread]
    | cons s' l =>
      rw [List.map_cons] at ih
      rw [List.map_cons, List.map_cons, List.intercalate_cons_cons, List.append_assoc,
        readElements_quoteElement, List.singleton_append, readElements, if_neg (by decide), hread]
      show (do return s :: (← readElements .before _)) = _
      rw [ih]
      rfl

/-- Elements begin and end with quotes, so that no blank of theirs is dropped. -/
theorem bare_quoteElements (l : List String) : Bare (quoteElements l).toList := by
  rw [toList_quoteElements]
  cases l with
  | nil => exact ⟨nofun, nofun⟩
  | cons s l =>
    have hquote : Bare ['\x27'] := .of_all rfl
    have helement : ∀ p ∈ (s :: l).map quoteElement, Bare p ∧ p ≠ [] := by
      intro p hp
      obtain ⟨s, -, rfl⟩ := List.mem_map.mp hp
      refine ⟨?_, List.cons_ne_nil _ _⟩
      exact hquote.append hquote (List.cons_ne_nil _ _) (List.cons_ne_nil _ _) _
    exact (Bare.intercalate [','] (List.cons_ne_nil _ _) helement).1

/-! ### Names and arguments -/

/-- **A text that begins a type**: small letters, without blanks and parentheses, that do not end as
`unsigned` does. -/
structure IsName (name : String) : Prop where
  ne_nil : name.toList ≠ []
  last : name.toList.getLast? ≠ some 'd'
  bare : ∀ c ∈ name.toList, isBlank c = false
  unopened : ∀ c ∈ name.toList, c ≠ '('
  small : ∀ c ∈ name.toList, c.toLower = c

instance (name : String) : Decidable (IsName name) :=
  decidable_of_iff (name.toList ≠ [] ∧ name.toList.getLast? ≠ some 'd' ∧
      name.toList.all (fun c => isBlank c = false ∧ c ≠ '(' ∧ c.toLower = c) = true) <| by
    simp only [List.all_eq_true, decide_eq_true_eq]
    exact ⟨fun ⟨hne, hlast, hall⟩ =>
      ⟨hne, hlast, fun c hc => (hall c hc).1, fun c hc => (hall c hc).2.1,
        fun c hc => (hall c hc).2.2⟩,
      fun h => ⟨h.ne_nil, h.last, fun c hc => ⟨h.bare c hc, h.unopened c hc, h.small c hc⟩⟩⟩

/-- A name with arguments between parentheses. -/
def applied (name inside : String) : String := name ++ "(" ++ inside ++ ")"

theorem toList_applied (name inside : String) :
    (applied name inside).toList = name.toList ++ '(' :: (inside.toList ++ [')']) := by
  simp [applied]

theorem IsName.bare_toList (h : IsName name) : Bare name.toList := .of_forall h.bare

theorem IsName.lower_toList (h : IsName name) : lower name.toList = name.toList := by
  have hmap := List.map_congr_left (f := Char.toLower) (g := id) h.small
  rw [lower, hmap, List.map_id]

theorem IsName.bare_applied (h : IsName name) (inside : String) :
    Bare (applied name inside).toList := by
  rw [toList_applied]
  exact h.bare_toList.append (.of_all rfl) h.ne_nil (List.cons_ne_nil _ _) (_ :: _)

/-- A text is cut at its first `(` and its last `)`. -/
theorem IsName.splitParentheses_applied (h : IsName name) (inside : String) :
    splitParentheses (applied name inside).toList = .ok (name.toList, some inside.toList) := by
  have hname : ∀ c ∈ name.toList, decide (c ≠ '(') = true := fun c hc =>
    decide_eq_true (h.unopened c hc)
  have htake : (applied name inside).toList.takeWhile (· ≠ '(') = name.toList := by
    rw [toList_applied, List.takeWhile_append_of_pos hname]
    simp
  have hdrop : (applied name inside).toList.dropWhile (· ≠ '(') =
      '(' :: (inside.toList ++ [')']) := by
    rw [toList_applied, List.dropWhile_append_of_pos hname]
    simp
  unfold splitParentheses
  rw [htake, hdrop, h.bare_toList.trim_eq]
  simp

theorem IsName.splitParentheses_toList (h : IsName name) :
    splitParentheses name.toList = .ok (name.toList, none) := by
  have hdrop : name.toList.dropWhile (· ≠ '(') = [] :=
    List.dropWhile_eq_nil_iff.mpr fun c hc => decide_eq_true (h.unopened c hc)
  unfold splitParentheses
  rw [hdrop]

/-- What the parts of a text are read as. -/
theorem IsName.parse_eq (h : IsName name) {arguments : Option (List Char)} (hb : Bare cs)
    (hs : splitParentheses cs = .ok (name.toList, arguments))
    (hn : readNumbers name arguments = .ok numbers) :
    parse cs = ofName name numbers (arguments.getD []) := by
  rw [parse_eq_bind, hb.trim_eq, hs]
  show (readNumbers (String.ofList (lower name.toList)) arguments >>= fun numbers =>
    ofName (String.ofList (lower name.toList)) numbers (arguments.getD [])) = _
  rw [h.lower_toList, String.ofList_toList, hn]
  rfl

/-- Numbers with commas between them. -/
def commaDigits (numbers : List Nat) : String := ",".intercalate (numbers.map toString)

/-- **Reading numbers undoes writing them.** -/
theorem readArguments_commaDigits (hne : numbers ≠ []) (h : ∀ n ∈ numbers, n ≤ maxWord) :
    readArguments (commaDigits numbers).toList = .ok numbers := by
  have hlist : (commaDigits numbers).toList = [','].intercalate (numbers.map digits) := by
    rw [commaDigits, String.toList_intercalate, List.map_map]
    congr 1
    exact List.map_congr_left fun n _ => Nat.toList_repr
  have hsplit : (commaDigits numbers).toList.splitOn ',' = numbers.map digits := by
    rw [hlist]
    refine List.splitOn_intercalate ',' ?_ (by simpa using hne)
    intro ds hds hcomma
    obtain ⟨n, -, rfl⟩ := List.mem_map.mp hds
    exact absurd (Numeral.isDigit_of_mem_digits hcomma) (by decide)
  have hread : ∀ n ∈ numbers, readArgument (digits n) = .ok n := by
    intro n hn
    have hbare : Bare (digits n) := .of_forall fun c hc =>
      Text.isBlank_of_isDigit (Numeral.isDigit_of_mem_digits hc)
    unfold readArgument
    rw [hbare.trim_eq, Numeral.unsigned?_digits (h n hn)]
  unfold readArguments
  rw [hsplit, mapM_eq_ok_iff, List.forall₂_map_left_iff, List.forall₂_same]
  exact hread

/-! ### Texts -/

/-- **How the text of a type is made up**: it is a name alone, or a name with arguments. -/
inductive Spelled (t : ColumnType) : Prop
  | name {name : String} (isName : IsName name) (text : t.toText = name)
      (means : ofName name [] [] = .ok t)
  | applied {name inside : String} {numbers : List Nat} (isName : IsName name)
      (text : t.toText = applied name inside)
      (reads : readNumbers name (some inside.toList) = .ok numbers)
      (means : ofName name numbers inside.toList = .ok t)

namespace Spelled

/-- A name with numbers. -/
theorem ofNumbers (name : String) (numbers : List Nat) (isName : IsName name)
    (plain : ¬ (name = "enum" ∨ name = "set")) (hne : numbers ≠ [])
    (words : ∀ n ∈ numbers, n ≤ maxWord)
    (text : t.toText = ColumnType.applied name (commaDigits numbers))
    (means : ∀ inside, ofName name numbers inside = .ok t) : Spelled t :=
  .applied isName text ((if_neg plain).trans (readArguments_commaDigits hne words)) (means _)

/-- A name with one number. -/
theorem ofNumber (name : String) {n : Nat} (isName : IsName name)
    (plain : ¬ (name = "enum" ∨ name = "set")) (word : n ≤ maxWord)
    (text : t.toText = ColumnType.applied name (toString n))
    (means : ∀ inside, ofName name [n] inside = .ok t) : Spelled t :=
  ofNumbers name [n] isName plain (List.cons_ne_nil _ _) (by simpa using word) text means

/-- A name with the digits of a fraction of a second, which are left out if there are none. -/
theorem ofFraction (name : String) {n : Nat} (isName : IsName name)
    (plain : ¬ (name = "enum" ∨ name = "set")) (few : n ≤ 6) (text : t.toText = withFraction name n)
    (means : ∀ numbers inside, numbers.head?.getD 0 = n → ofName name numbers inside = .ok t) :
    Spelled t := by
  unfold withFraction at text
  split at text
  · next h => exact .name isName text (means [] [] h.symm)
  · exact .ofNumber name isName plain (few.trans (by decide)) text fun inside =>
      means [n] inside rfl

/-- A name with elements. -/
theorem ofElements (name : String) {l : List String} (isName : IsName name)
    (listed : name = "enum" ∨ name = "set")
    (text : t.toText = ColumnType.applied name (quoteElements l))
    (means : readElements .before (trim (quoteElements l).toList) = .ok l →
      ofName name [] (quoteElements l).toList = .ok t) : Spelled t := by
  refine .applied isName text (if_pos listed) (means ?_)
  rw [(bare_quoteElements l).trim_eq, readElements_quoteElements]

variable (h : Spelled t)
include h

theorem bare : Bare t.toText.toList := by
  cases h with
  | name isName text => rw [text]; exact isName.bare_toList
  | applied isName text => rw [text]; exact isName.bare_applied _

theorem ne_nil : t.toText.toList ≠ [] := by
  cases h with
  | name isName text => rw [text]; exact isName.ne_nil
  | applied isName text => rw [text, toList_applied]; simp

/-- The text of a type does not end as `unsigned` does. -/
theorem last : ∀ c ∈ t.toText.toList.getLast?, c.toLower ≠ 'd' := by
  intro c hc
  cases h with
  | name isName text =>
    rw [text] at hc
    rw [isName.small c (List.mem_of_getLast? hc)]
    rintro rfl
    exact isName.last hc
  | applied isName text =>
    rw [text, toList_applied, ← List.cons_append, ← List.append_assoc, List.getLast?_concat] at hc
    cases hc
    decide

/-- **A text that is made up so is read as its type.** -/
theorem parse_toText : parse t.toText.toList = .ok t := by
  cases h with
  | name isName text means =>
    rw [text, isName.parse_eq isName.bare_toList isName.splitParentheses_toList readNumbers_none]
    exact means
  | applied isName text reads means =>
    rw [text, isName.parse_eq (isName.bare_applied _) (isName.splitParentheses_applied _) reads]
    exact means

end Spelled

theorem map_readFraction (f : Nat → ColumnType) {n m : Nat} (h : n = m) (few : m ≤ 6) :
    f <$> readFraction n = .ok (f m) :=
  map_eq_ok.mpr ⟨m, readFraction_eq_ok.mpr ⟨h ▸ few, h⟩, rfl⟩

/-- **The text of each type is a name alone or with arguments.** -/
theorem spelled (h : t.Declared) : Spelled t := by
  have hword : maxWord = 0xFFFFFFFF := rfl
  cases t with
  | tinyInt | smallInt | mediumInt | int | bigInt | float | double | date | year | tinyText | text
  | mediumText | longText | tinyBlob | blob | mediumBlob | longBlob | json =>
    exact .name (by decide) rfl rfl
  | decimal p s =>
    obtain ⟨hp, hp65, hs30, hsp⟩ := h
    refine .ofNumbers "decimal" [p, s] (by decide) (by decide) (List.cons_ne_nil _ _)
      (fun n hn => ?_) ?_ fun inside => ?_
    · simp only [List.mem_cons, List.not_mem_nil, or_false] at hn
      omega
    · show "decimal" ++ "(" ++ toString p ++ "," ++ toString s ++ ")" =
        "decimal" ++ "(" ++ (toString p ++ "," ++ toString s) ++ ")"
      simp only [String.append_assoc]
    · show (if p = 0 ∨ 65 < p ∨ 30 < s ∨ p < s then _ else _) = _
      exact if_neg (by omega)
  | dateTime n =>
    exact .ofFraction "datetime" (by decide) (by decide) h rfl fun _ _ hn =>
      map_readFraction dateTime hn h
  | timestamp n =>
    exact .ofFraction "timestamp" (by decide) (by decide) h rfl fun _ _ hn =>
      map_readFraction timestamp hn h
  | time n =>
    exact .ofFraction "time" (by decide) (by decide) h rfl fun _ _ hn => map_readFraction time hn h
  | char n => exact .ofNumber "char" (by decide) (by decide) h rfl fun _ => rfl
  | varChar n => exact .ofNumber "varchar" (by decide) (by decide) h rfl fun _ => rfl
  | binary n => exact .ofNumber "binary" (by decide) (by decide) h rfl fun _ => rfl
  | varBinary n => exact .ofNumber "varbinary" (by decide) (by decide) h rfl fun _ => rfl
  | bit n =>
    obtain ⟨hpos, hle⟩ := h
    exact .ofNumber "bit" (by decide) (by decide) (by omega) rfl fun _ =>
      if_neg (show ¬ (n = 0 ∨ 64 < n) by omega)
  | enum l =>
    exact .ofElements "enum" (by decide) (by decide) rfl fun hread => map_eq_ok.mpr ⟨l, hread, rfl⟩
  | set l =>
    exact .ofElements "set" (by decide) (by decide) rfl fun hread =>
      bind_eq_ok.mpr ⟨l, hread, if_pos h⟩

end ColumnType

namespace Column

/-! ### The word after a type -/

theorem splitUnsigned_of_last {cs : List Char} (h : ∀ c ∈ cs.getLast?, c.toLower ≠ 'd') :
    splitUnsigned cs = (cs, false) := by
  unfold splitUnsigned
  rw [if_neg]
  rintro ⟨-, hsuffix⟩
  obtain ⟨front, hfront⟩ := List.isSuffixOf_iff_suffix.mp hsuffix
  have hlast : (Text.lower cs).getLast? = some 'd' := by
    have hword : unsignedWord.getLast? = some 'd' := by decide
    rw [← hfront, List.getLast?_append_of_ne_nil _ (by decide), hword]
  rw [Text.lower, List.getLast?_map, Option.map_eq_some_iff] at hlast
  obtain ⟨c, hc, hd⟩ := hlast
  exact h c hc hd

theorem splitUnsigned_append {cs : List Char} (hne : cs ≠ []) :
    splitUnsigned (cs ++ unsignedWord) = (cs, true) := by
  have hlower : Text.lower (cs ++ unsignedWord) = Text.lower cs ++ unsignedWord := by
    rw [Text.lower, List.map_append]
    rfl
  have hpos := List.length_pos_iff.mpr hne
  have hlength : unsignedWord.length < (cs ++ unsignedWord).length := by
    rw [List.length_append]
    omega
  have hsuffix : unsignedWord.isSuffixOf (Text.lower (cs ++ unsignedWord)) = true := by
    rw [hlower]
    exact List.isSuffixOf_iff_suffix.mpr (List.suffix_append _ _)
  unfold splitUnsigned
  rw [if_pos ⟨hlength, hsuffix⟩, List.length_append, Nat.add_sub_cancel, List.take_left]

/-- A column has the type of what stands before the word. -/
theorem parse_eq {name text : String} {rest : List Char} {unsigned : Bool} {t : ColumnType}
    (hb : Text.Bare text.toList) (hs : splitUnsigned text.toList = (rest, unsigned))
    (hrest : ColumnType.parse rest = .ok t) :
    parse name text = .ok { ofType name t with unsigned } := by
  unfold parse
  rw [hb.trim_eq, hs]
  show (ColumnType.parse rest >>= _) = _
  rw [hrest]
  rfl

/-- **Reading the text of a type gives the type back**, alone and as that of a column. The types
that are read at all are those that can be declared. -/
theorem reads_back (t : ColumnType) :
    ((∃ text, ColumnType.parse text = .ok t) ↔ t.Declared) ∧
      (t.Declared →
        ColumnType.parse t.toText.toList = .ok t ∧
        ∀ name, parse name t.toText = .ok (ofType name t) ∧
          parse name (t.toText ++ " unsigned") = .ok { ofType name t with unsigned := true }) := by
  have hread : t.Declared → ColumnType.parse t.toText.toList = .ok t := fun h =>
    (ColumnType.spelled h).parse_toText
  refine ⟨⟨fun ⟨_, h⟩ => ColumnType.declared_of_parse h, fun h => ⟨_, hread h⟩⟩, fun h => ?_⟩
  have hspelled := ColumnType.spelled h
  refine ⟨hread h, fun name => ⟨?_, ?_⟩⟩
  · exact parse_eq hspelled.bare (splitUnsigned_of_last hspelled.last) (hread h)
  · have htext : (t.toText ++ " unsigned").toList = (t.toText.toList ++ [' ']) ++ unsignedWord := by
      rw [String.toList_append, List.append_assoc]
      rfl
    have hword : Text.Bare unsignedWord := .of_all (by decide)
    refine parse_eq ?_ (htext ▸ splitUnsigned_append (by simp)) ?_
    · rw [htext, List.append_assoc]
      exact hspelled.bare.append hword hspelled.ne_nil (by decide) _
    · -- the blank before the word goes with those at the ends of the type
      have htrim := hspelled.bare.trim_append_blank hspelled.ne_nil (c := ' ') rfl
      unfold ColumnType.parse
      rw [htrim, ← hspelled.bare.trim_eq]
      exact hread h

/-- Elements that hold a quote, what stands between arguments, nothing, or the word after a type. -/
theorem reads_back_quoted :
    (ColumnType.set ["it's", "a,b)(", "", " unsigned"]).Declared ∧
      ColumnType.parse "set('it''s','a,b)(','',' unsigned')".toList =
        .ok (.set ["it's", "a,b)(", "", " unsigned"]) ∧
      parse "flags" "set('it''s','a,b)(','',' unsigned') unsigned" =
        .ok { ofType "flags" (.set ["it's", "a,b)(", "", " unsigned"]) with unsigned := true } := by
  have hset : (ColumnType.set ["it's", "a,b)(", "", " unsigned"]).Declared := by
    show 4 ≤ 64
    decide
  obtain ⟨hparse, hcolumn⟩ := (reads_back _).2 hset
  exact ⟨hset, hparse, (hcolumn "flags").2⟩

end Column
end Tablespace
