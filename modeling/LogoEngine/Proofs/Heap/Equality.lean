import LogoEngine.Heap.Equality
import LogoEngine.Proofs.Decimal.Case
import LogoEngine.Proofs.Decimal.RoundTrip
import LogoEngine.Proofs.Heap.Spines

/-!
# Equality of values is an equivalence

When words are compared, a word counts for its number if it has one and for its key otherwise
(`Word.standsFor`). A key reads as the same number as the word itself, and so two words are equal
exactly if they count for the same: no word with a number has the key of a word without one.

Lists are compared up to a depth, and lists nested deeper than that are equal only where they are the
same list. One level of the comparison (`EqualStep`) keeps symmetry and transitivity, whatever the
depth below it, and the same list is equal to itself at each. Values are equal exactly if so many
levels say so (`EqualWithin`).

Main statements: `equal_iff`, which values are equal, and `equal_equivalence`.
-/

namespace LogoEngine

namespace Word

/-! ### Words -/

/-- The number of a word, if it has one, is neither infinite nor missing a value. -/
def HasFiniteReading (w : Word) : Prop :=
  ∀ x, w.number? = some x → x.isFinite = true

/-- What a word counts for when it is compared. -/
def standsFor (w : Word) : ℚ ⊕ String :=
  match w.number? with
  | some x => .inl (doubleValue x)
  | none => .inr w.key

/-- The number that a word was written as or made from. -/
inductive Denotes : Word → ℚ → Prop
  | text {s : String} {n : Decimal.Numeral} (hspells : Decimal.Spells s.toList n) :
      Denotes (.text s) n.value
  | number (x : Float) : Denotes (.number x) (doubleValue x)

variable {v w : Word} {x y : Float} {q : ℚ}

/-- A key is read as the text of its word. -/
theorem parse?_key (w : Word) : Decimal.parse? w.key = Decimal.parse? w.toText :=
  Decimal.parse?_upper w.toText

/-- **A key reads as the number of its word.** -/
theorem doubleValue_parse?_key (hw : w.HasFiniteReading) :
    (Decimal.parse? w.key).map doubleValue = w.number?.map doubleValue := by
  rw [parse?_key]
  cases w with
  | text s => rfl
  | number x =>
    have hx : x.isFinite = true := hw x rfl
    show (Decimal.parse? (numberText x)).map doubleValue = some (doubleValue x)
    rw [parse?_numberText hx, Option.map_some]
    split
    · next hzero => rw [(beq_iff_doubleValue hx rfl).mp hzero]
    · rfl
  | truth b =>
    have hnone : Decimal.Numeral.parse? (truth b).toText.toList = none := by cases b <;> decide
    rw [Decimal.parse?, hnone]
    rfl

theorem standsFor_of_number? (hx : v.number? = some x) : v.standsFor = .inl (doubleValue x) := by
  rw [standsFor, hx]

/-- Words with one key count for the same. -/
theorem standsFor_eq_of_key_eq (hv : v.HasFiniteReading) (hw : w.HasFiniteReading)
    (hkey : v.key = w.key) : v.standsFor = w.standsFor := by
  have hsame : v.number?.map doubleValue = w.number?.map doubleValue := by
    rw [← doubleValue_parse?_key hv, hkey, doubleValue_parse?_key hw]
  rw [standsFor, standsFor, hkey]
  generalize v.number? = x? at hsame
  generalize w.number? = y? at hsame
  cases x? with
  | none =>
    cases y? with
    | none => rfl
    | some y => cases hsame
  | some x =>
    cases y? with
    | none => cases hsame
    | some y => exact congrArg Sum.inl (Option.some_inj.mp hsame)

/-- **Words are equal exactly if they count for the same.** -/
theorem equalWords_iff (hv : v.HasFiniteReading) (hw : w.HasFiniteReading) :
    Heap.equalWords v w = true ↔ v.standsFor = w.standsFor := by
  have hkeys : (v.key == w.key) = true → v.standsFor = w.standsFor := fun h =>
    standsFor_eq_of_key_eq hv hw (beq_iff_eq.mp h)
  cases hx : v.number? with
  | some x =>
    cases hy : w.number? with
    | some y =>
      rw [Heap.equalWords, hx, hy, standsFor_of_number? hx, standsFor_of_number? hy, Sum.inl.injEq]
      exact beq_iff_doubleValue (hv x hx) (hw y hy)
    | none =>
      have hne : v.standsFor ≠ w.standsFor := by simp [standsFor, hx, hy]
      simp only [Heap.equalWords, hx, hy]
      exact ⟨hkeys, fun h => (hne h).elim⟩
  | none =>
    simp only [Heap.equalWords, hx]
    refine ⟨hkeys, fun h => ?_⟩
    cases hy : w.number? with
    | some y => simp [standsFor, hx, hy] at h
    | none => simpa [standsFor, hx, hy] using h

theorem Denotes.exists_isRounded (h : w.Denotes q) : ∃ x, w.number? = some x ∧ IsRounded q x := by
  cases h with
  | @text s n hspells =>
    refine ⟨n.toFloat, ?_, n.isRounded_toFloat⟩
    rw [number?, Decimal.parse?, hspells.parse?_eq, Option.map_some]
  | number x => exact ⟨x, rfl, isRounded_doubleValue x⟩

/-- Words count for the same however one number was written. -/
theorem standsFor_eq_of_denotes (hv : v.HasFiniteReading) (hw : w.HasFiniteReading)
    (hvq : v.Denotes q) (hwq : w.Denotes q) : v.standsFor = w.standsFor := by
  obtain ⟨x, hx, hqx⟩ := hvq.exists_isRounded
  obtain ⟨y, hy, hqy⟩ := hwq.exists_isRounded
  have heq := beq_of_isRounded (hv x hx) (hw y hy) hqx hqy
  rw [standsFor_of_number? hx, standsFor_of_number? hy,
    (beq_iff_doubleValue (hv x hx) (hw y hy)).mp heq]

end Word

namespace Heap

/-! ### One level -/

/-- Values that can be compared: words without a number that is infinite or none, arrays, and lists
that end and hold such values. -/
inductive Comparable (h : Heap) : Ref → Prop
  | word {r : Ref} {w : Word} (hget : h.get r = .word w) (hfinite : w.HasFiniteReading) :
      Comparable h r
  | array {r : Ref} {origin : Int} {items : Array Ref} (hget : h.get r = .array origin items) :
      Comparable h r
  | list {r : Ref} {items : List Ref} (hlist : h.IsListOf r items)
      (hitems : ∀ s ∈ items, Comparable h s) : Comparable h r

/-- One level of a comparison, with a relation for the elements of lists. -/
inductive EqualStep (h : Heap) (R : Ref → Ref → Prop) : Ref → Ref → Prop
  | same {a : Ref} : EqualStep h R a a
  | word {a b : Ref} {v w : Word} (ha : h.get a = .word v) (hb : h.get b = .word w)
      (hsame : v.standsFor = w.standsFor) : EqualStep h R a b
  | list {a b : Ref} {xs ys : List Ref} (ha : h.IsListOf a xs) (hb : h.IsListOf b ys)
      (hlength : xs.length = ys.length)
      (hitems : ∀ (i : Nat) (hx : i < xs.length) (hy : i < ys.length), R xs[i] ys[i]) :
      EqualStep h R a b

variable {h : Heap} {R : Ref → Ref → Prop} {a b c : Ref} {depth : Nat}

theorem EqualStep.symm (hsymm : ∀ s t, R s t → R t s) (hab : EqualStep h R a b) :
    EqualStep h R b a := by
  cases hab with
  | same => exact .same
  | word ha hb hsame => exact .word hb ha hsame.symm
  | list ha hb hlength hitems =>
    exact .list hb ha hlength.symm fun i hx hy => hsymm _ _ (hitems i hy hx)

theorem EqualStep.trans (htrans : ∀ s t u, R s t → R t u → R s u) (hab : EqualStep h R a b)
    (hbc : EqualStep h R b c) : EqualStep h R a c := by
  cases hab with
  | same => exact hbc
  | word ha hb hsame =>
    cases hbc with
    | same => exact .word ha hb hsame
    | word hb' hc hsame' =>
      rw [hb] at hb'
      cases hb'
      exact .word ha hc (hsame.trans hsame')
    | list hb' =>
      obtain ⟨cell, hcell⟩ := hb'.exists_cell
      rw [hb] at hcell
      cases hcell
  | list ha hb hlength hitems =>
    cases hbc with
    | same => exact .list ha hb hlength hitems
    | word hb' =>
      obtain ⟨cell, hcell⟩ := hb.exists_cell
      rw [hb'] at hcell
      cases hcell
    | list hb' hc hlength' hitems' =>
      obtain rfl := hb.unique hb'
      refine .list ha hc (hlength.trans hlength') fun i hx hz => ?_
      exact htrans _ _ _ (hitems i hx (hlength ▸ hx)) (hitems' i (hlength ▸ hx) hz)

/-- So many levels of a comparison. Below them nothing is equal, not even to itself. -/
def EqualWithin (h : Heap) : Nat → Ref → Ref → Prop
  | 0 => fun _ _ => False
  | depth + 1 => EqualStep h (h.EqualWithin depth)

theorem EqualWithin.symm (hab : h.EqualWithin depth a b) : h.EqualWithin depth b a := by
  induction depth generalizing a b with
  | zero => exact hab
  | succ depth ih => exact EqualStep.symm (fun _ _ => ih) hab

theorem EqualWithin.trans (hab : h.EqualWithin depth a b) (hbc : h.EqualWithin depth b c) :
    h.EqualWithin depth a c := by
  induction depth generalizing a b c with
  | zero => exact hab
  | succ depth ih => exact EqualStep.trans (fun _ _ _ => ih) hab hbc

/-! ### What is compared -/

theorem Comparable.hasFiniteReading {w : Word} (ha : h.Comparable a) (hget : h.get a = .word w) :
    w.HasFiniteReading := by
  cases ha with
  | word hget' hfinite =>
    rw [hget] at hget'
    cases hget'
    exact hfinite
  | array hget' =>
    rw [hget] at hget'
    cases hget'
  | list hlist =>
    obtain ⟨cell, hcell⟩ := hlist.exists_cell
    rw [hget] at hcell
    cases hcell

theorem Comparable.of_isListOf {items : List Ref} (ha : h.Comparable a) (hlist : h.IsListOf a items) :
    ∀ s ∈ items, h.Comparable s := by
  obtain ⟨cell, hcell⟩ := hlist.exists_cell
  cases ha with
  | word hget | array hget =>
    rw [hget] at hcell
    cases hcell
  | list hlist' hitems =>
    obtain rfl := hlist.unique hlist'
    exact hitems

theorem Comparable.exists_isListOf {cell : Cell} (ha : h.Comparable a) (hget : h.get a = .list cell) :
    ∃ items, h.IsListOf a items := by
  cases ha with
  | word hget' | array hget' =>
    rw [hget] at hget'
    cases hget'
  | list hlist _ => exact ⟨_, hlist⟩

/-- The same value is equal to itself at each depth but none. -/
theorem equalUpTo_self (ha : h.Comparable a) : h.equalUpTo (depth + 1) a a = true := by
  cases ha with
  | word hget hfinite => simpa [equalUpTo, hget] using (Word.equalWords_iff hfinite hfinite).mpr rfl
  | array hget => simp [equalUpTo, hget]
  | list hlist =>
    obtain ⟨cell, hcell⟩ := hlist.exists_cell
    simp [equalUpTo, hcell]

/-- Lists that are not the same are compared element by element. -/
theorem equalUpTo_lists {xs ys : List Ref} (ha : h.IsListOf a xs) (hb : h.IsListOf b ys) :
    h.equalUpTo (depth + 1) a b = true ↔ a = b ∨ xs.length = ys.length ∧
      ∀ (i : Nat) (hx : i < xs.length) (hy : i < ys.length),
        h.equalUpTo depth xs[i] ys[i] = true := by
  obtain ⟨cell, hcell⟩ := ha.exists_cell
  obtain ⟨cell', hcell'⟩ := hb.exists_cell
  rw [equalUpTo, hcell, hcell']
  simp only [ha.items_eq, hb.items_eq, Bool.or_eq_true, Bool.and_eq_true, beq_iff_eq,
    List.all_eq_true]
  refine or_congr_right (and_congr_right fun hlength => ⟨fun hall i hx hy => ?_, ?_⟩)
  · refine hall (xs[i], ys[i]) ?_
    rw [← List.getElem_zip (h := by rw [List.length_zip]; omega)]
    exact List.getElem_mem _
  · intro hall pair hpair
    obtain ⟨i, hi, rfl⟩ := List.mem_iff_getElem.mp hpair
    rw [List.length_zip] at hi
    rw [List.getElem_zip]
    exact hall i (by omega) (by omega)

/-- The comparison finds equal what is equal within so many levels. -/
theorem equalUpTo_iff (ha : h.Comparable a) (hb : h.Comparable b) :
    h.equalUpTo depth a b = true ↔ h.EqualWithin depth a b := by
  -- on the levels: elements are compared with one level less
  induction depth generalizing a b with
  | zero => simp [equalUpTo, EqualWithin]
  | succ depth ih =>
    constructor
    · intro hequal
      have hunfolded := hequal
      rw [equalUpTo] at hunfolded
      split at hunfolded
      · next hword hword' =>
        have hsame := Word.equalWords_iff (ha.hasFiniteReading hword) (hb.hasFiniteReading hword')
        exact .word hword hword' (hsame.mp hunfolded)
      · next hcell hcell' =>
        obtain ⟨xs, hxs⟩ := ha.exists_isListOf hcell
        obtain ⟨ys, hys⟩ := hb.exists_isListOf hcell'
        rcases (equalUpTo_lists hxs hys).mp hequal with rfl | ⟨hlength, hall⟩
        · exact .same
        · refine .list hxs hys hlength fun i hx hy => ?_
          exact (ih (ha.of_isListOf hxs _ (List.getElem_mem hx))
            (hb.of_isListOf hys _ (List.getElem_mem hy))).mp (hall i hx hy)
      · obtain rfl := beq_iff_eq.mp hunfolded
        exact .same
      · cases hunfolded
    · rintro (_ | ⟨hword, hword', hsame⟩ | ⟨hxs, hys, hlength, hitems⟩)
      · exact equalUpTo_self ha
      · rw [equalUpTo, hword, hword']
        exact (Word.equalWords_iff (ha.hasFiniteReading hword) (hb.hasFiniteReading hword')).mpr hsame
      · refine (equalUpTo_lists hxs hys).mpr (.inr ⟨hlength, fun i hx hy => ?_⟩)
        exact (ih (ha.of_isListOf hxs _ (List.getElem_mem hx))
          (hb.of_isListOf hys _ (List.getElem_mem hy))).mpr (hitems i hx hy)

/-- **Which values are equal.** Two values are equal exactly if they are the same one, words that
count for the same, or lists of one length whose elements are equal in turn, at most 1000 levels
deep. -/
theorem equal_iff (ha : h.Comparable a) (hb : h.Comparable b) :
    h.equal a b = true ↔ h.EqualWithin (maxCompareDepth + 1) a b :=
  equalUpTo_iff ha hb

/-- **Equality of values is an equivalence**, and words are equal if they denote one number, read as
equal numbers or have one key. -/
theorem equal_equivalence (h : Heap) :
    Equivalence (fun a b : {r // h.Comparable r} => h.equal a b = true) ∧
    ∀ a b v w, h.get a = .word v → h.get b = .word w →
      v.HasFiniteReading → w.HasFiniteReading →
      (∃ q, v.Denotes q ∧ w.Denotes q) ∨
        (∃ x y, v.number? = some x ∧ w.number? = some y ∧ (x == y) = true) ∨ v.key = w.key →
      h.equal a b = true := by
  refine ⟨⟨fun a => ?_, fun {a b} hab => ?_, fun {a b c} hab hbc => ?_⟩, ?_⟩
  · exact (equal_iff a.2 a.2).mpr .same
  · exact (equal_iff b.2 a.2).mpr ((equal_iff a.2 b.2).mp hab).symm
  · exact (equal_iff a.2 c.2).mpr (((equal_iff a.2 b.2).mp hab).trans ((equal_iff b.2 c.2).mp hbc))
  · intro a b v w ha hb hv hw hwords
    refine (equal_iff (.word ha hv) (.word hb hw)).mpr (.word ha hb ?_)
    rcases hwords with ⟨q, hvq, hwq⟩ | ⟨x, y, hx, hy, heq⟩ | hkey
    · exact Word.standsFor_eq_of_denotes hv hw hvq hwq
    · rw [Word.standsFor_of_number? hx, Word.standsFor_of_number? hy,
        (beq_iff_doubleValue (hv x hx) (hw y hy)).mp heq]
    · exact Word.standsFor_eq_of_key_eq hv hw hkey

example : [Word.text "2.0", .text "2E0", .number 2, .text "2e1"].map (equalWords (.text "2e0")) =
    [true, true, true, false] := by
  decide +kernel

end Heap

end LogoEngine
