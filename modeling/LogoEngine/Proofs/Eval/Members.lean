import LogoEngine.Proofs.Eval.Mutation
import LogoEngine.Proofs.Heap.Spines

/-!
# Members

`MEMBERP` says whether a value is an element of a list or a character of a word, and `MEMBER` gives
the list or the word from the first such place on. On lists both compare with each element. On words
they do not look for the same thing: `MEMBERP` looks for the upper case of the character in that of
the word, and `MEMBER` for a character with the same upper case. An upper case can have several
characters, that of `ß` being `SS`; `MEMBERP` then finds a character that is not there. Whatever
`MEMBER` finds, `MEMBERP` finds too, and where each upper case is one character, both find the same.

Main statement: `memberP_member`.
-/

namespace LogoEngine

/-! ### Texts inside texts -/

namespace Text

/-- Two characters are equal, their case aside. -/
def SameLetter (c d : Char) : Prop :=
  upperChar d = upperChar c

instance (c d : Char) : Decidable (SameLetter c d) :=
  inferInstanceAs (Decidable (_ = _))

variable {pattern text : List Char} {c : Char}

theorem occursIn_iff : occursIn pattern text = true ↔ pattern <:+: text := by
  induction text with
  | nil => rw [occursIn, List.isEmpty_iff, List.infix_nil]
  | cons c rest ih =>
    rw [occursIn, Bool.or_eq_true, List.isPrefixOf_iff_prefix, ih, List.infix_cons_iff]

/-- The upper case of a text is found in that of another one. -/
theorem contains_upper_iff {s t : String} : contains (upper s) (upper t) = true ↔
    t.toList.flatMap upperChar <:+: s.toList.flatMap upperChar := by
  simp only [contains, upper, String.toList_ofList, occursIn_iff]

/-- A character of a text is found in its upper case. -/
theorem infix_flatMap_of_sameLetter (h : ∃ d ∈ text, SameLetter c d) :
    upperChar c <:+: text.flatMap upperChar := by
  obtain ⟨d, hd, hsame⟩ := h
  obtain ⟨before, after, rfl⟩ := List.append_of_mem hd
  rw [← hsame, List.flatMap_append, List.flatMap_cons]
  exact ⟨before.flatMap upperChar, after.flatMap upperChar, List.append_assoc ..⟩

/-- Where each upper case is one character, nothing else is found. -/
theorem exists_sameLetter_of_infix (hc : (upperChar c).length = 1)
    (htext : ∀ d ∈ text, (upperChar d).length = 1)
    (h : upperChar c <:+: text.flatMap upperChar) : ∃ d ∈ text, SameLetter c d := by
  obtain ⟨u, hu⟩ := List.length_eq_one_iff.mp hc
  rw [hu] at h
  obtain ⟨d, hd, hmem⟩ := List.mem_flatMap.mp (h.mem (List.mem_singleton_self u))
  obtain ⟨v, hv⟩ := List.length_eq_one_iff.mp (htext d hd)
  rw [hv, List.mem_singleton] at hmem
  exact ⟨d, hd, by rw [SameLetter, hv, hu, hmem]⟩

end Text

/-! ### Longest rests -/

/-- The first element has a property. -/
def BeginsWith {α : Type} (p : α → Prop) (l : List α) : Prop :=
  ∃ x, l.head? = some x ∧ p x

/-- The longest of all rests of a list that begin with an element that has a property. -/
structure IsLongestFrom {α : Type} (p : α → Prop) (l rest : List α) : Prop where
  suffix : rest <:+ l
  begins : BeginsWith p rest
  longest : ∀ other, other <:+ l → BeginsWith p other → other.length ≤ rest.length

section

variable {α : Type} {p : α → Prop} {test : α → Bool} {l rest : List α} {x : α} {n : Nat}

theorem IsLongestFrom.exists_mem (h : IsLongestFrom p l rest) : ∃ x ∈ l, p x := by
  obtain ⟨x, hx, hp⟩ := h.begins
  exact ⟨x, h.suffix.mem (List.mem_of_head? hx), hp⟩

/-- No element before the rest has the property. -/
theorem isLongestFrom_drop (hx : l[n]? = some x) (hp : p x)
    (hbefore : ∀ i < n, ∀ y, l[i]? = some y → ¬ p y) : IsLongestFrom p l (l.drop n) := by
  refine ⟨l.drop_suffix n, ⟨x, by rw [List.head?_drop, hx], hp⟩, ?_⟩
  rintro other hother ⟨y, hy, hpy⟩
  rw [List.suffix_iff_eq_drop.mp hother, List.head?_drop] at hy
  by_contra hlonger
  rw [List.length_drop] at hlonger
  have hle : other.length ≤ l.length := hother.length_le
  refine hbefore _ ?_ y hy hpy
  have hlt : n < l.length := (List.getElem?_eq_some_iff.mp hx).1
  omega

theorem isLongestFrom_of_findIdx? (h : l.findIdx? test = some n) :
    IsLongestFrom (fun x => test x = true) l (l.drop n) := by
  obtain ⟨hlt, htest, hbefore⟩ := List.findIdx?_eq_some_iff_getElem.mp h
  refine isLongestFrom_drop (List.getElem?_eq_getElem hlt) htest fun i hi y hy => ?_
  obtain ⟨hlt', rfl⟩ := List.getElem?_eq_some_iff.mp hy
  exact hbefore i hi

/-- All elements without a property are dropped from the front, or all there are. -/
theorem isLongestFrom_or_dropWhile (test : α → Bool) (l : List α) :
    IsLongestFrom (fun x => test x = true) l (l.dropWhile fun x => !test x) ∨
      (∀ x ∈ l, test x = false) ∧ (l.dropWhile fun x => !test x) = [] := by
  have hdrop : (l.dropWhile fun x => !test x) = l.drop (l.findIdx test) := by
    simp only [List.dropWhile_eq_drop_findIdx_not, Bool.not_not]
  rw [hdrop]
  cases hfind : l.findIdx? test with
  | some n =>
    rw [(List.findIdx?_eq_some_iff_findIdx_eq.mp hfind).2]
    exact .inl (isLongestFrom_of_findIdx? hfind)
  | none =>
    have hnone := List.findIdx?_eq_none_iff.mp hfind
    refine .inr ⟨hnone, ?_⟩
    rw [List.findIdx_eq_length.mpr hnone, List.drop_length]

end

/-! ### Members of lists -/

section

variable {w : World} {word : Word} {a b : Ref} {items : List Ref}

/-- What `MEMBER` gives for a list: a cell of it, and the longest rest from an equal element on, or
an empty list. -/
inductive World.ListMember (w : World) (a b : Ref) (items : List Ref) :
    Bool → Except Halt (Ref × World) → Prop
  | found {n : Nat} {r : Ref} {rest : List Ref} (hcell : w.heap.dropCells n b = some r)
      (hrest : w.heap.IsListOf r rest)
      (hlongest : IsLongestFrom (fun x => w.heap.equal a x = true) items rest) :
      ListMember w a b items true (.ok (r, w))
  | missing {r : Ref} {h : Heap} (hnone : ∀ x ∈ items, w.heap.equal a x = false)
      (hgrows : w.heap.Grows h) (hempty : h.IsListOf r []) :
      ListMember w a b items false (.ok (r, { w with heap := h }))

theorem listMember_applyData (node a : Ref) (hlist : w.heap.IsListOf b items) :
    w.ListMember a b items (items.any (w.heap.equal a)) (applyData .member node [a, b] w) := by
  obtain ⟨cell, hget⟩ := hlist.exists_cell
  have hfound := hlist.findCell_eq (w.heap.equal a) hlist.length_lt_size.le
  cases hfind : items.findIdx? (w.heap.equal a) with
  | some n =>
    have hlongest := isLongestFrom_of_findIdx? hfind
    obtain ⟨hlt, -⟩ := List.findIdx?_eq_some_iff_getElem.mp hfind
    obtain ⟨r, hcell, hrest⟩ := hlist.dropCells hlt.le
    have hany : items.any (w.heap.equal a) = true := List.any_eq_true.mpr hlongest.exists_mem
    have hresult : dataResult w.heap .member [a, b] = .found r := by
      simp [dataResult, hget, hfound, hfind, hcell]
    rw [applyData_of_found (by decide) hresult, hany]
    exact .found hcell hrest hlongest
  | none =>
    have hnone := List.findIdx?_eq_none_iff.mp hfind
    have hany : items.any (w.heap.equal a) = false := by simpa using hnone
    have hresult : dataResult w.heap .member [a, b] = .made newEmpty := by
      simp [dataResult, hget, hfound, hfind]
    rw [applyData_eq (by decide), hresult, hany]
    exact .missing hnone (.newCell none w.heap) (.newEmpty w.heap)

theorem makes_memberP_list (node a : Ref) (hlist : w.heap.IsListOf b items) :
    w.Makes (.truth (items.any (w.heap.equal a))) (applyData .memberP node [a, b] w) := by
  obtain ⟨cell, hget⟩ := hlist.exists_cell
  refine makes_of_word node (by decide) ?_
  simp [dataResult, hget, hlist.items_eq, DataResult.truth, newTruth]

/-! ### Characters of words -/

theorem makes_memberP_word (node a : Ref) (hget : w.heap.get b = .word word) :
    w.Makes (.truth (charOccurs w.heap a word)) (applyData .memberP node [a, b] w) := by
  refine makes_of_word node (by decide) ?_
  simp [dataResult, hget, DataResult.truth, newTruth]

theorem makes_member_word (node a : Ref) (hget : w.heap.get b = .word word) :
    w.Makes (.text (String.ofList (textFromChar w.heap a word)))
      (applyData .member node [a, b] w) := by
  refine makes_of_word node (by decide) ?_
  simp [dataResult, hget, DataResult.chars, DataResult.text, newText]

theorem charOccurs_eq_true_iff {h : Heap} : charOccurs h a word = true ↔
    ∃ c, h.chars? a = some [c] ∧
      Text.upperChar c <:+: word.toText.toList.flatMap Text.upperChar := by
  unfold charOccurs Heap.chars?
  cases h.word? a with
  | none => simp
  | some v =>
    simp only [Bool.and_eq_true, beq_iff_eq, Word.key, Text.contains_upper_iff, Option.map_some,
      Option.some_inj, ← String.length_toList, List.length_eq_one_iff]
    constructor
    · rintro ⟨⟨c, hc⟩, hinfix⟩
      rw [hc, List.flatMap_singleton] at hinfix
      exact ⟨c, hc, hinfix⟩
    · rintro ⟨c, hc, hinfix⟩
      rw [hc, List.flatMap_singleton]
      exact ⟨⟨c, rfl⟩, hinfix⟩

/-- What `MEMBER` gives for a word, if anything: the longest rest from an equal character on. -/
theorem textFromChar_cases (h : Heap) (a : Ref) (word : Word) :
    (∃ c, h.chars? a = some [c] ∧
      IsLongestFrom (Text.SameLetter c) word.toText.toList (textFromChar h a word)) ∨
    textFromChar h a word = [] ∧
      ∀ c, h.chars? a = some [c] → ∀ d ∈ word.toText.toList, ¬ Text.SameLetter c d := by
  unfold textFromChar
  split
  · next c hc =>
    rcases isLongestFrom_or_dropWhile (fun d => Text.upperChar d == Text.upperChar c)
        word.toText.toList with hlongest | ⟨hnone, hempty⟩
    · simp only [beq_iff_eq] at hlongest
      exact .inl ⟨c, hc, hlongest⟩
    · refine .inr ⟨hempty, fun c' hc' d hd => ?_⟩
      cases hc.symm.trans hc'
      exact beq_eq_false_iff_ne.mp (hnone d hd)
  · next hother => exact .inr ⟨rfl, fun c hc => absurd hc (hother c)⟩

end

/-- **`MEMBERP` and `MEMBER`.** Of a list that ends, `MEMBER` gives the very cell with the longest
rest from an equal element on if `MEMBERP` is true, and an empty list if it is false, in which case
no element is equal. Of a word, `MEMBERP` is true if the upper case of the one character it is asked
for is part of the upper case of the word. If `MEMBER` gives anything, then `MEMBERP` is true and it
is the longest rest from an equal character on, and else no character is equal. The two agree if all
these characters have an upper case of one character. -/
theorem memberP_member (nodeP node a b : Ref) (w : World) :
    (∀ items, w.heap.IsListOf b items →
      ∃ t, w.Makes (.truth t) (applyData .memberP nodeP [a, b] w) ∧
        w.ListMember a b items t (applyData .member node [a, b] w)) ∧
    ∀ word, w.heap.get b = .word word →
      ∃ t rest, w.Makes (.truth t) (applyData .memberP nodeP [a, b] w) ∧
        w.Makes (.text (String.ofList rest)) (applyData .member node [a, b] w) ∧
        (t = true ↔ ∃ c, w.heap.chars? a = some [c] ∧
          Text.upperChar c <:+: word.toText.toList.flatMap Text.upperChar) ∧
        (rest ≠ [] → t = true ∧ ∃ c, w.heap.chars? a = some [c] ∧
          IsLongestFrom (Text.SameLetter c) word.toText.toList rest) ∧
        (rest = [] → ∀ c, w.heap.chars? a = some [c] →
          ∀ d ∈ word.toText.toList, ¬ Text.SameLetter c d) ∧
        ((∀ c, w.heap.chars? a = some [c] →
          ∀ d ∈ c :: word.toText.toList, (Text.upperChar d).length = 1) →
            (t = true ↔ rest ≠ [])) := by
  refine ⟨fun items hlist => ⟨_, makes_memberP_list nodeP a hlist, listMember_applyData node a hlist⟩,
    fun word hget => ⟨_, _, makes_memberP_word nodeP a hget, makes_member_word node a hget,
      charOccurs_eq_true_iff, ?_⟩⟩
  -- `MEMBER` found a character, or there is none that is equal
  rcases textFromChar_cases w.heap a word with ⟨c, hc, hlongest⟩ | ⟨hempty, hnone⟩
  · have hsome : textFromChar w.heap a word ≠ [] := by
      obtain ⟨d, hd, -⟩ := hlongest.begins
      exact List.ne_nil_of_mem (List.mem_of_head? hd)
    have htrue : charOccurs w.heap a word = true :=
      charOccurs_eq_true_iff.mpr ⟨c, hc, Text.infix_flatMap_of_sameLetter hlongest.exists_mem⟩
    exact ⟨fun _ => ⟨htrue, c, hc, hlongest⟩, fun h => absurd h hsome,
      fun _ => iff_of_true htrue hsome⟩
  · refine ⟨fun h => absurd hempty h, fun _ => hnone, fun hsingle => ?_⟩
    refine iff_of_false (fun htrue => ?_) (not_not_intro hempty)
    obtain ⟨c, hc, hinfix⟩ := charOccurs_eq_true_iff.mp htrue
    obtain ⟨hone, hothers⟩ := List.forall_mem_cons.mp (hsingle c hc)
    obtain ⟨d, hd, hsame⟩ := Text.exists_sameLetter_of_infix hone hothers hinfix
    exact hnone c hc d hd hsame

namespace SharpS

/-- The words `s` and `ß`. -/
def world : World where
  heap := { objects := #[.nothing, .word (.text "s"), .word (.text "ß")] }

/-- An `s` is found in the upper case of `ß`, although no character of this word is an `s`. -/
theorem memberP_without_member :
    world.Makes (.truth true) (applyData .memberP ⟨0⟩ [⟨1⟩, ⟨2⟩] world) ∧
      world.Makes (.text "") (applyData .member ⟨0⟩ [⟨1⟩, ⟨2⟩] world) := by
  obtain ⟨t, rest, hmemberP, hmember, htrue, hrest, -⟩ :=
    (memberP_member ⟨0⟩ ⟨0⟩ ⟨1⟩ ⟨2⟩ world).2 (.text "ß") rfl
  have hchars : world.heap.chars? ⟨1⟩ = some ['s'] := rfl
  have hoccurs : Text.upperChar 's' <:+: ("ß".toList.flatMap Text.upperChar) := by decide +kernel
  obtain rfl : t = true := htrue.mpr ⟨'s', hchars, hoccurs⟩
  obtain rfl : rest = [] := by
    by_contra hsome
    obtain ⟨-, c, hc, hlongest⟩ := hrest hsome
    obtain ⟨d, hd, hsame⟩ := hlongest.exists_mem
    cases hchars.symm.trans hc
    obtain rfl : d = 'ß' := List.mem_singleton.mp hd
    have hother : ¬ Text.SameLetter 's' 'ß' := by decide +kernel
    exact hother hsame
  exact ⟨hmemberP, hmember⟩

end SharpS

end LogoEngine
