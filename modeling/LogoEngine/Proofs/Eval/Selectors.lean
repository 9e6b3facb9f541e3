import LogoEngine.Proofs.Eval.Mutation
import LogoEngine.Proofs.Heap.Spines

/-!
# Selectors and constructors

A word is taken apart into characters, and a list that ends into elements. Both are `Contents`, and
for both the selectors `FIRST`, `BUTFIRST`, `LAST`, `BUTLAST` and `ITEM` and the constructors `FPUT`
and `LPUT` say the same, though words are read by their texts and lists by their cells. What a selector
takes off, the constructor puts back; `ITEM` is `FIRST` after so many times `BUTFIRST`.

Main statement: `selectors_constructors`.
-/

namespace LogoEngine

/-! ### Contents -/

/-- The characters of a word or the elements of a list. -/
inductive Contents where
  | chars (cs : List Char)
  | items (rs : List Ref)

namespace Contents

/-- The number of characters or elements. -/
def length : Contents → Nat
  | chars cs => cs.length
  | items rs => rs.length

/-- What is left without the first `n` characters or elements. -/
def drop (n : Nat) : Contents → Contents
  | chars cs => chars (cs.drop n)
  | items rs => items (rs.drop n)

/-- What is left without the last character or element. -/
def dropLast : Contents → Contents
  | chars cs => chars cs.dropLast
  | items rs => items rs.dropLast

theorem length_drop (s : Contents) (n : Nat) : (s.drop n).length = s.length - n := by
  cases s <;> exact List.length_drop

theorem drop_drop (s : Contents) (m n : Nat) : (s.drop m).drop n = s.drop (m + n) := by
  cases s <;> simp [drop]

@[simp]
theorem drop_zero (s : Contents) : s.drop 0 = s := by
  cases s <;> rfl

end Contents

namespace Heap

/-- A value is the word or the list with some contents. -/
def Holds (h : Heap) (r : Ref) : Contents → Prop
  | .chars cs => h.chars? r = some cs
  | .items rs => h.IsListOf r rs

/-- A value is the word of a character, or the very element, with the given number from zero on. -/
def IsPart (h : Heap) (r : Ref) (n : Nat) : Contents → Prop
  | .chars cs => ∃ c, cs[n]? = some c ∧ h.chars? r = some [c]
  | .items rs => rs[n]? = some r

variable {h h' : Heap} {r : Ref} {cs : List Char} {s : Contents} {n : Nat}

theorem exists_word_of_chars? (hr : h.chars? r = some cs) :
    ∃ word, h.get r = .word word ∧ word.toText.toList = cs := by
  obtain ⟨word, hword, hcs⟩ := Option.map_eq_some_iff.mp hr
  exact ⟨word, get_of_word? hword, hcs⟩

theorem chars?_of_grows (hr : h.chars? r = some cs) (hgrows : h.Grows h') :
    h'.chars? r = some cs := by
  obtain ⟨word, hword, hcs⟩ := Option.map_eq_some_iff.mp hr
  rw [chars?, hgrows.word? hword, Option.map_some, hcs]

/-- A new word has the characters of its text. -/
theorem chars?_newText (text : String) (h : Heap) :
    (newText text h).2.chars? (newText text h).1 = some text.toList := by
  have hget : (newText text h).2.get (newText text h).1 = .word (.text text) := get_add_self h _
  rw [chars?, word?, hget]
  rfl

/-- What a value holds does not change when objects are made. -/
theorem Holds.of_grows (hr : h.Holds r s) (hgrows : h.Grows h') : h'.Holds r s := by
  cases s with
  | chars cs => exact chars?_of_grows hr hgrows
  | items rs => exact IsListOf.of_grows hr hgrows

theorem IsPart.of_grows (hr : h.IsPart r n s) (hgrows : h.Grows h') : h'.IsPart r n s := by
  cases s with
  | chars cs =>
    obtain ⟨c, hc, hchars⟩ := hr
    exact ⟨c, hc, chars?_of_grows hchars hgrows⟩
  | items rs => exact hr

end Heap

/-! ### What each selector gives -/

section

variable {w : World} {b x y : Ref} {s : Contents} {cs : List Char} {rs : List Ref} {n : Nat}

theorem gives_of_text {op : DataOp} {args : List Ref} {text : String} (node : Ref)
    (hthing : op ≠ .thing) (hresult : dataResult w.heap op args = .text text) :
    w.Gives (fun h r => h.chars? r = some text.toList) (applyData op node args w) :=
  gives_of_made node hthing hresult (Heap.chars?_newText text w.heap)

theorem gives_of_chars {op : DataOp} {args : List Ref} (node : Ref) (hthing : op ≠ .thing)
    (hresult : dataResult w.heap op args = .chars cs) :
    w.Gives (fun h r => h.chars? r = some cs) (applyData op node args w) := by
  have hgives := gives_of_text node hthing hresult
  rwa [String.toList_ofList] at hgives

theorem gives_of_newList {op : DataOp} {args : List Ref} (node : Ref) (hthing : op ≠ .thing)
    (hresult : dataResult w.heap op args = .made (newList rs)) :
    w.Gives (fun h r => h.IsListOf r rs) (applyData op node args w) :=
  gives_of_made node hthing hresult (.newList rs w.heap)

theorem gives_first (node : Ref) (hb : w.heap.Holds b s) (hs : s.length ≠ 0) :
    w.Gives (fun h r => h.IsPart r 0 s) (applyData .first node [b] w) := by
  cases s with
  | chars cs =>
    obtain ⟨word, hget, hcs⟩ := Heap.exists_word_of_chars? hb
    obtain ⟨c, cs, rfl⟩ := List.exists_cons_of_length_pos (Nat.pos_of_ne_zero hs)
    have hresult : dataResult w.heap .first [b] = .chars [c] := by
      simp [dataResult, hget, hcs]
    obtain ⟨r, h, hrun, hgrows, hchars⟩ := gives_of_chars node (by decide) hresult
    exact ⟨r, h, hrun, hgrows, c, rfl, hchars⟩
  | items rs =>
    obtain ⟨cell, hget⟩ := Heap.IsListOf.exists_cell hb
    cases hb with
    | nil => exact absurd rfl hs
    | @cons _ head tail rest hpair hrest =>
      refine gives_of_found node (by decide) (r := head) ?_ rfl
      simp [dataResult, hget, hpair, DataResult.orDislike]

theorem gives_butFirst (node : Ref) (hb : w.heap.Holds b s) (hs : s.length ≠ 0) :
    w.Gives (fun h r => h.Holds r (s.drop 1)) (applyData .butFirst node [b] w) := by
  cases s with
  | chars cs =>
    obtain ⟨word, hget, hcs⟩ := Heap.exists_word_of_chars? hb
    obtain ⟨c, cs, rfl⟩ := List.exists_cons_of_length_pos (Nat.pos_of_ne_zero hs)
    refine gives_of_chars node (by decide) ?_
    simp [dataResult, hget, hcs]
  | items rs =>
    obtain ⟨cell, hget⟩ := Heap.IsListOf.exists_cell hb
    cases hb with
    | nil => exact absurd rfl hs
    | @cons _ head tail rest hpair hrest =>
      refine gives_of_found node (by decide) (r := tail) ?_ hrest
      simp [dataResult, hget, hpair, DataResult.orDislike]

theorem gives_last (node : Ref) (hb : w.heap.Holds b s) (hs : s.length ≠ 0) :
    w.Gives (fun h r => h.IsPart r (s.length - 1) s) (applyData .last node [b] w) := by
  cases s with
  | chars cs =>
    obtain ⟨word, hget, hcs⟩ := Heap.exists_word_of_chars? hb
    obtain ⟨c, hc⟩ := Option.isSome_iff_exists.mp
      (List.getLast?_isSome.mpr (List.ne_nil_of_length_pos (Nat.pos_of_ne_zero hs)))
    have hresult : dataResult w.heap .last [b] = .chars [c] := by
      simp [dataResult, hget, hcs, hc]
    obtain ⟨r, h, hrun, hgrows, hchars⟩ := gives_of_chars node (by decide) hresult
    exact ⟨r, h, hrun, hgrows, c, List.getLast?_eq_getElem?.symm.trans hc, hchars⟩
  | items rs =>
    obtain ⟨cell, hget⟩ := Heap.IsListOf.exists_cell hb
    obtain ⟨x, hx⟩ := Option.isSome_iff_exists.mp
      (List.getLast?_isSome.mpr (List.ne_nil_of_length_pos (Nat.pos_of_ne_zero hs)))
    refine gives_of_found node (by decide) (r := x) ?_ (List.getLast?_eq_getElem?.symm.trans hx)
    simp [dataResult, hget, Heap.IsListOf.items_eq hb, hx, DataResult.orDislike]

theorem gives_butLast (node : Ref) (hb : w.heap.Holds b s) (hs : s.length ≠ 0) :
    w.Gives (fun h r => h.Holds r s.dropLast) (applyData .butLast node [b] w) := by
  cases s with
  | chars cs =>
    obtain ⟨word, hget, rfl⟩ := Heap.exists_word_of_chars? hb
    have hempty : word.isEmpty = false := by
      rw [Word.isEmpty, ← Bool.not_eq_true, String.isEmpty_iff]
      rintro htext
      exact hs (by simp [Contents.length, htext])
    refine gives_of_chars node (by decide) ?_
    simp [dataResult, hget, hempty]
  | items rs =>
    obtain ⟨cell, hget⟩ := Heap.IsListOf.exists_cell hb
    have hempty : w.heap.isEmptyList b = false := by
      cases hb with
      | nil => exact absurd rfl hs
      | cons hpair =>
        rw [← Bool.not_eq_true]
        intro hempty
        rw [Heap.pair?_of_isEmptyList hempty] at hpair
        cases hpair
    refine gives_of_newList node (by decide) ?_
    simp [dataResult, hget, hempty, Heap.IsListOf.items_eq hb]

/-! ### What each constructor puts together -/

theorem gives_fput (node : Ref) (hx : w.heap.IsPart x 0 s) (hy : w.heap.Holds y (s.drop 1)) :
    w.Gives (fun h r => h.Holds r s) (applyData .fput node [x, y] w) := by
  cases s with
  | chars cs =>
    obtain ⟨c, hc, hx⟩ := hx
    obtain ⟨head, hhead, hheadcs⟩ := Heap.exists_word_of_chars? hx
    obtain ⟨rest, hrest, hrestcs⟩ := Heap.exists_word_of_chars? hy
    have hresult : dataResult w.heap .fput [x, y] = .text (head.toText ++ rest.toText) := by
      simp [dataResult, hrest, Heap.word?, hhead, Object.word?]
    have hgives := gives_of_text node (by decide) hresult
    obtain ⟨cs, rfl⟩ := List.head?_eq_some_iff.mp (List.head?_eq_getElem?.trans hc)
    rw [String.toList_append, hheadcs, hrestcs] at hgives
    exact hgives
  | items rs =>
    obtain ⟨cell, hget⟩ := Heap.IsListOf.exists_cell hy
    obtain ⟨rs, rfl⟩ := List.head?_eq_some_iff.mp (List.head?_eq_getElem?.trans hx)
    have hresult : dataResult w.heap .fput [x, y] = .made (newCell (some (x, y))) := by
      simp [dataResult, hget]
    exact gives_of_made node (by decide) hresult (Heap.IsListOf.newCell hy x)

theorem gives_lput (node : Ref) (hx : w.heap.IsPart x (s.length - 1) s)
    (hy : w.heap.Holds y s.dropLast) :
    w.Gives (fun h r => h.Holds r s) (applyData .lput node [x, y] w) := by
  cases s with
  | chars cs =>
    obtain ⟨c, hc, hx⟩ := hx
    obtain ⟨tail, htail, htailcs⟩ := Heap.exists_word_of_chars? hx
    obtain ⟨rest, hrest, hrestcs⟩ := Heap.exists_word_of_chars? hy
    have hresult : dataResult w.heap .lput [x, y] = .text (rest.toText ++ tail.toText) := by
      simp [dataResult, hrest, Heap.word?, htail, Object.word?]
    have hgives := gives_of_text node (by decide) hresult
    rw [String.toList_append, htailcs, hrestcs,
      List.dropLast_append_getLast? c (List.getLast?_eq_getElem?.trans hc)] at hgives
    exact hgives
  | items rs =>
    obtain ⟨cell, hget⟩ := Heap.IsListOf.exists_cell hy
    refine gives_of_newList node (by decide) ?_
    simp only [dataResult]
    simp [hget, Heap.IsListOf.items_eq hy,
      List.dropLast_append_getLast? x (List.getLast?_eq_getElem?.trans hx)]

end

/-! ### Taking apart and putting together -/

/-- What two selectors give is put together by a constructor. -/
def rebuild (part rest put : DataOp) (node : DataOp → Ref) (b : Ref) : Run Ref := do
  let x ← applyData part (node part) [b]
  let y ← applyData rest (node rest) [b]
  applyData put (node put) [x, y]

/-- Takes off so many first characters or elements. -/
def butFirsts (node : Ref) : Nat → Ref → Run Ref
  | 0, b => pure b
  | n + 1, b => applyData .butFirst node [b] >>= butFirsts node n

section

variable {w : World} {b i : Ref} {s : Contents} {k : Nat}

theorem gives_rebuild_first (node : DataOp → Ref) (hb : w.heap.Holds b s) (hs : s.length ≠ 0) :
    w.Gives (fun h r => h.Holds r s) (rebuild .first .butFirst .fput node b w) := by
  refine (gives_first _ hb hs).bind fun x h hgrows hx => ?_
  refine (gives_butFirst _ (hb.of_grows hgrows) hs).bind fun y h' hgrows' hy => ?_
  exact gives_fput _ (hx.of_grows hgrows') hy

theorem gives_rebuild_last (node : DataOp → Ref) (hb : w.heap.Holds b s) (hs : s.length ≠ 0) :
    w.Gives (fun h r => h.Holds r s) (rebuild .last .butLast .lput node b w) := by
  refine (gives_last _ hb hs).bind fun x h hgrows hx => ?_
  refine (gives_butLast _ (hb.of_grows hgrows) hs).bind fun y h' hgrows' hy => ?_
  exact gives_lput _ (hx.of_grows hgrows') hy

theorem gives_butFirsts (node : Ref) (hb : w.heap.Holds b s) (hk : k ≤ s.length) :
    w.Gives (fun h r => h.Holds r (s.drop k)) (butFirsts node k b w) := by
  induction k generalizing w b s with
  | zero => exact ⟨b, w.heap, rfl, .refl w.heap, by rwa [Contents.drop_zero]⟩
  | succ k ih =>
    refine (gives_butFirst node hb (by omega)).bind fun r h _ hr => ?_
    have hgives := ih (w := { w with heap := h }) hr (by rw [Contents.length_drop]; omega)
    rwa [Contents.drop_drop, Nat.add_comm] at hgives

/-! ### Parts by their numbers -/

/-- The numbers of the parts are counted from one. -/
theorem Heap.IsIndex.integer?_eq {h : Heap} {size : Nat} (hi : h.IsIndex i 1 size k) :
    h.integer? i = some ((k + 1 : Nat) : Int) ∧ k < size := by
  obtain ⟨n, hn, hslot⟩ := Option.bind_eq_some_iff.mp (Heap.isIndex_iff.mp hi)
  obtain ⟨rfl, hlt⟩ := Heap.slot?_eq_some_iff.mp hslot
  exact ⟨by rw [hn, Nat.cast_succ, add_comm], hlt⟩

theorem gives_item (node : Ref) (hb : w.heap.Holds b s) (hi : w.heap.IsIndex i 1 s.length k) :
    w.Gives (fun h r => h.IsPart r k s) (applyData .item node [i, b] w) := by
  obtain ⟨hinteger, hlt⟩ := hi.integer?_eq
  have hpos : 1 ≤ ((k + 1 : Nat) : Int) := by omega
  cases s with
  | chars cs =>
    obtain ⟨word, hget, hcs⟩ := Heap.exists_word_of_chars? hb
    have hlt : k < cs.length := hlt
    have hresult : dataResult w.heap .item [i, b] = .chars [cs[k]] := by
      simp only [dataResult, List.head?_cons, List.getElem?_cons_succ, List.getElem?_cons_zero,
        Option.getD_some, hinteger, hget, if_pos hpos, hcs, Int.toNat_natCast, Nat.add_sub_cancel,
        List.getElem?_eq_getElem hlt]
    obtain ⟨r, h, hrun, hgrows, hchars⟩ := gives_of_chars node (by decide) hresult
    exact ⟨r, h, hrun, hgrows, _, List.getElem?_eq_getElem hlt, hchars⟩
  | items rs =>
    obtain ⟨cell, hget⟩ := Heap.IsListOf.exists_cell hb
    have hlt : k < rs.length := hlt
    refine gives_of_found node (by decide) (r := rs[k]) ?_ (List.getElem?_eq_getElem hlt)
    simp only [dataResult, List.head?_cons, List.getElem?_cons_succ, List.getElem?_cons_zero,
      Option.getD_some, hinteger, hget, if_pos hpos, Int.toNat_natCast, Heap.IsListOf.item?_eq hb,
      List.getElem?_eq_getElem hlt, DataResult.orDislike]

/-- There is no part with another number. -/
theorem dislikes_item (hb : w.heap.Holds b s) (hi : ∀ k, ¬ w.heap.IsIndex i 1 s.length k) :
    dataResult w.heap .item [i, b] = .dislikes i := by
  have hnone : (w.heap.integer? i).bind (Heap.slot? 1 s.length) = none :=
    Option.eq_none_iff_forall_ne_some.mpr fun k hk => hi k (Heap.isIndex_iff.mpr hk)
  cases hinteger : w.heap.integer? i with
  | none => simp [dataResult, hinteger]
  | some n =>
    rw [hinteger, Option.bind_some] at hnone
    have hout : 1 ≤ n → s.length ≤ n.toNat - 1 := fun hpos => by
      by_contra hlt
      have hslot := Heap.slot?_eq_some_iff.mpr
        (show n = 1 + ((n.toNat - 1 : Nat) : Int) ∧ n.toNat - 1 < s.length by omega)
      exact Option.some_ne_none _ (hslot.symm.trans hnone)
    cases s with
    | chars cs =>
      obtain ⟨word, hget, hcs⟩ := Heap.exists_word_of_chars? hb
      have hmissing : (if 1 ≤ n then cs[n.toNat - 1]? else none) = none := by
        split
        · next hpos => exact List.getElem?_eq_none (hout hpos)
        · rfl
      simp only [dataResult, List.head?_cons, List.getElem?_cons_succ, List.getElem?_cons_zero,
        Option.getD_some, hinteger, hget, hcs, hmissing]
    | items rs =>
      obtain ⟨cell, hget⟩ := Heap.IsListOf.exists_cell hb
      have hmissing : (if 1 ≤ n then w.heap.item? b n.toNat else none) = none := by
        split
        · next hpos =>
          obtain ⟨m, hm⟩ : ∃ m, n.toNat = m + 1 := ⟨n.toNat - 1, by omega⟩
          have hlength : rs.length ≤ m := by
            have hlength := hout hpos
            rwa [hm, Nat.add_sub_cancel] at hlength
          rw [hm, Heap.IsListOf.item?_eq hb, List.getElem?_eq_none hlength]
        · rfl
      simp only [dataResult, List.head?_cons, List.getElem?_cons_succ, List.getElem?_cons_zero,
        Option.getD_some, hinteger, hget, hmissing, DataResult.orDislike]

/-- `FIRST` after so many times `BUTFIRST`. -/
theorem gives_first_butFirsts (node node' : Ref) (hb : w.heap.Holds b s) (hk : k < s.length) :
    w.Gives (fun h r => h.IsPart r k s)
      ((butFirsts node k b >>= fun r => applyData .first node' [r]) w) := by
  refine (gives_butFirsts node hb hk.le).bind fun r h hgrows hr => ?_
  have hrest : (s.drop k).length ≠ 0 := by
    rw [Contents.length_drop]
    omega
  obtain ⟨x, h', hrun, hgrows', hx⟩ := gives_first (w := { w with heap := h }) node' hr hrest
  refine ⟨x, h', hrun, hgrows', ?_⟩
  cases s with
  | chars cs =>
    obtain ⟨c, hc, hx⟩ := hx
    rw [List.getElem?_drop] at hc
    exact ⟨c, hc, hx⟩
  | items rs => exact (List.getElem?_drop ..).symm.trans hx

theorem makes_count (node : Ref) (hb : w.heap.Holds b s) :
    w.Makes (.number (Float.ofNat s.length)) (applyData .count node [b] w) := by
  refine makes_of_word node (by decide) ?_
  cases s with
  | chars cs =>
    obtain ⟨word, hget, rfl⟩ := Heap.exists_word_of_chars? hb
    simp [dataResult, hget, newNumber, Contents.length, String.length_toList]
  | items rs =>
    obtain ⟨cell, hget⟩ := Heap.IsListOf.exists_cell hb
    simp [dataResult, hget, newNumber, Contents.length, Heap.IsListOf.items_eq hb]

/-! ### Lists and arrays -/

variable {a l o : Ref} {cell : Cell} {rs : List Ref} {n : Int} {x : Float}

theorem dataResult_fput (a : Ref) (hl : w.heap.get l = .list cell) :
    dataResult w.heap .fput [a, l] = .made (newCell (some (a, l))) := by
  simp [dataResult, hl]

/-- A cell in front of any list, even one with a cycle, has the two values it was made of. -/
theorem gives_fput_cell (node : Ref) (a : Ref) (hl : w.heap.get l = .list cell) :
    w.Gives (fun h r => ∃ cell', h.get r = .list cell' ∧ cell'.pair = some (a, l))
      (applyData .fput node [a, l] w) :=
  gives_of_made node (by decide) (dataResult_fput a hl)
    ⟨⟨w.heap.nextId, some (a, l), 0, none⟩,
      Heap.get_add_self { w.heap with nextId := w.heap.nextId + 1 } _, rfl⟩

theorem gives_first_cell {r : Ref} (node : Ref) (hr : w.heap.get r = .list cell)
    (hpair : cell.pair = some (a, l)) :
    w.Gives (fun _ value => value = a) (applyData .first node [r] w) := by
  refine gives_of_found node (by decide) (r := a) ?_ rfl
  simp [dataResult, hr, Heap.pair?, Heap.cell?, Object.cell?, hpair, DataResult.orDislike]

theorem gives_butFirst_cell {r : Ref} (node : Ref) (hr : w.heap.get r = .list cell)
    (hpair : cell.pair = some (a, l)) :
    w.Gives (fun _ value => value = l) (applyData .butFirst node [r] w) := by
  refine gives_of_found node (by decide) (r := l) ?_ rfl
  simp [dataResult, hr, Heap.pair?, Heap.cell?, Object.cell?, hpair, DataResult.orDislike]

/-- The origin of an array to be made: one, or the integer of 32 bits that a second input reads
as. -/
inductive Heap.IsOrigin (h : Heap) : List Ref → Int → Prop
  | default : IsOrigin h [] 1
  | given {o : Ref} {x : Float} {n : Int} (hreads : h.number? o = some x)
      (hn : Decimal.toInt? x = some n) (hleast : -0x80000000 ≤ n) (hmost : n < 0x80000000) :
      IsOrigin h [o] n

theorem Heap.IsOrigin.originInput_eq {h : Heap} {origin : List Ref} (ho : h.IsOrigin origin n)
    (l : Ref) : h.originInput (l :: origin) = .ok n := by
  cases ho with
  | default => rfl
  | @given o x n hreads hn hleast hmost =>
    have hsmall : n.natAbs < 9000000000000000 := by omega
    have hinteger : h.integer? o = some n :=
      Option.filter_eq_some_iff.mpr ⟨by rw [hreads, Option.bind_some, hn], by simpa using hsmall⟩
    have horigin : h.origin? o = some n :=
      Option.filter_eq_some_iff.mpr ⟨hinteger, by simpa using ⟨hleast, hmost⟩⟩
    simp [Heap.originInput, horigin]

theorem gives_listToArray {origin : List Ref} (node : Ref) (hl : w.heap.IsListOf l rs)
    (ho : w.heap.IsOrigin origin n) :
    w.Gives (fun h r => h.get r = .array n rs.toArray)
      (applyData .listToArray node (l :: origin) w) := by
  obtain ⟨cell, hget⟩ := hl.exists_cell
  have hresult : dataResult w.heap .listToArray (l :: origin) = .made (newArray n rs) := by
    simp [dataResult, hget, ho.originInput_eq, hl.items_eq]
  exact gives_of_made node (by decide) hresult (w.heap.get_add_self _)

theorem gives_arrayToList {array : Ref} (node : Ref)
    (harray : w.heap.get array = .array n rs.toArray) :
    w.Gives (fun h r => h.IsListOf r rs) (applyData .arrayToList node [array] w) := by
  refine gives_of_newList node (by decide) ?_
  simp [dataResult, harray]

end

/-- **Selectors undo constructors.** For a word or a list that ends, `FPUT` of what `FIRST` and
`BUTFIRST` give and `LPUT` of what `LAST` and `BUTLAST` give have the same characters or elements,
unless there are none. `COUNT` says how many there are; `ITEM` takes the numbers from one to this
count, fails on everything else, and gives what `FIRST` gives after one `BUTFIRST` less. Of `FPUT` of
any value and any list, `FIRST` and `BUTFIRST` are the value and the very list. An array made of a
list with any origin of 32 bits has the elements of the list in order. -/
theorem selectors_constructors (node : DataOp → Ref) (w : World) :
    (∀ b s, w.heap.Holds b s →
      (s.length ≠ 0 →
        w.Gives (fun h r => h.Holds r s) (rebuild .first .butFirst .fput node b w) ∧
        w.Gives (fun h r => h.Holds r s) (rebuild .last .butLast .lput node b w)) ∧
      w.Makes (.number (Float.ofNat s.length)) (applyData .count (node .count) [b] w) ∧
      ∀ i,
        (∀ k, w.heap.IsIndex i 1 s.length k →
          w.Gives (fun h r => h.IsPart r k s) (applyData .item (node .item) [i, b] w) ∧
          w.Gives (fun h r => h.IsPart r k s)
            ((butFirsts (node .butFirst) k b >>= fun r => applyData .first (node .first) [r]) w)) ∧
        ((∀ k, ¬ w.heap.IsIndex i 1 s.length k) →
          ∃ r w' e, applyData .item (node .item) [i, b] w = .ok (r, w') ∧ w.Raises r e w') ∧
        (s.length ≤ 2 ^ 52 → ∀ k,
          (w.heap.IsIndex i 1 s.length k ↔ w.heap.ReadsAs i 1 k ∧ k < s.length))) ∧
    (∀ a l cell, w.heap.get l = .list cell →
      w.Gives (fun _ r => r = a)
        ((applyData .fput (node .fput) [a, l] >>= fun z => applyData .first (node .first) [z]) w) ∧
      w.Gives (fun _ r => r = l) ((applyData .fput (node .fput) [a, l] >>= fun z =>
        applyData .butFirst (node .butFirst) [z]) w)) ∧
    ∀ l rs origin n, w.heap.IsListOf l rs → w.heap.IsOrigin origin n →
      w.Gives (fun h r => h.IsListOf r rs)
        ((applyData .listToArray (node .listToArray) (l :: origin) >>= fun z =>
          applyData .arrayToList (node .arrayToList) [z]) w) := by
  refine ⟨fun b s hb => ⟨fun hs => ⟨gives_rebuild_first node hb hs, gives_rebuild_last node hb hs⟩,
    makes_count _ hb, fun i => ⟨fun k hi => ⟨gives_item _ hb hi, ?_⟩, fun hi => ?_, ?_⟩⟩,
    fun a l cell hl => ⟨?_, ?_⟩, fun l rs origin n hl ho => ?_⟩
  · exact gives_first_butFirsts _ _ hb hi.2.1
  · exact exists_applyData_of_dislikes _ (by decide) (dislikes_item hb hi)
  · exact fun hsize k => Heap.isIndex_iff_readsAs (by decide) (by decide) hsize
  · exact (gives_fput_cell _ a hl).bind fun z h _ ⟨_, hget, hpair⟩ => gives_first_cell _ hget hpair
  · exact (gives_fput_cell _ a hl).bind fun z h _ ⟨_, hget, hpair⟩ =>
      gives_butFirst_cell _ hget hpair
  · exact (gives_listToArray _ hl ho).bind fun z h _ harray => gives_arrayToList _ harray

end LogoEngine
