import LogoEngine.Proofs.Decimal.Grammar
import LogoEngine.Text.Case

/-!
# Numerals in upper case

A text is a numeral exactly if its upper-case text is one, and the same one. The only letter in a
numeral is the mark of the exponent, which may be written in either case; and no other character has an
upper case made of the characters of numerals alone.

Main statement: `parse?_upper`.
-/

namespace LogoEngine.Decimal

open Text

/-! ### The characters of numerals -/

/-- A character that numerals are written with. -/
def isNumeric (c : Char) : Bool :=
  c.isDigit || ['+', '-', '.', 'e', 'E'].contains c

/-- The upper case of a character that numerals are written with. -/
def upperMark (c : Char) : Char :=
  if c = 'e' then 'E' else c

section

variable {c : Char} {code : Nat}

theorem isNumeric_of_isDigit (hc : c.isDigit = true) : isNumeric c = true := by
  rw [isNumeric, hc, Bool.true_or]

/-- The codes of numerals lie below those of letters, but for the marks. -/
theorem toNat_of_isNumeric (hc : isNumeric c = true) :
    0 < c.toNat ∧ (c.toNat < 58 ∨ c.toNat = 69 ∨ c.toNat = 101) := by
  rw [isNumeric, Bool.or_eq_true] at hc
  rcases hc with hdigit | hmem
  · obtain ⟨hlow, hhigh⟩ := Bool.and_eq_true_iff.mp hdigit
    have hlow : 48 ≤ c.toNat := of_decide_eq_true hlow
    have hhigh : c.toNat ≤ 57 := of_decide_eq_true hhigh
    omega
  · simp only [List.contains_cons, List.contains_nil, Bool.or_false, Bool.or_eq_true, beq_iff_eq]
      at hmem
    rcases hmem with rfl | rfl | rfl | rfl | rfl <;> decide

/-- The case of ASCII characters leaves numerals numerals, and makes no others. -/
theorem toUpper_of_lt : ∀ code < 128,
    (isNumeric (Char.ofNat code) = true → (Char.ofNat code).toUpper = upperMark (Char.ofNat code)) ∧
    (isNumeric (Char.ofNat code).toUpper = true → isNumeric (Char.ofNat code) = true) := by
  decide

theorem upperChar_of_isNumeric (hc : isNumeric c = true) : upperChar c = [upperMark c] := by
  have hlt : c.toNat < 128 := by
    have := toNat_of_isNumeric hc
    omega
  have hupper := (toUpper_of_lt c.toNat hlt).1
  rw [Char.ofNat_toNat] at hupper
  rw [upperChar, if_pos hlt, hupper hc]

/-- No code of a numeral lies between two bounds. -/
def AvoidsNumeric (low high : Int) : Prop :=
  58 ≤ low ∧ (high < 69 ∨ 69 < low) ∧ (high < 101 ∨ 101 < low)

instance (low high : Int) : Decidable (AvoidsNumeric low high) :=
  inferInstanceAs (Decidable (_ ∧ _))

theorem AvoidsNumeric.not_isNumeric {low high : Int} (h : AvoidsNumeric low high)
    (hlow : low ≤ code) (hhigh : code ≤ high) : ¬ isNumeric (Char.ofNat code) = true := by
  intro hc
  have hcode := toNat_of_isNumeric hc
  obtain ⟨hleast, hupper, hlower⟩ := h
  rw [Char.toNat_ofNat] at hcode
  split at hcode <;> omega

/-- Each expansion has a character that is in no numeral. -/
theorem exists_avoids_of_mem_upperExpansions : ∀ entry ∈ upperExpansions,
    ∃ code ∈ entry.2, AvoidsNumeric code code := by
  decide +kernel

/-- The upper-case letters of the runs are in no numeral. -/
theorem avoids_of_mem_upperRuns : ∀ run ∈ upperRuns,
    AvoidsNumeric (run.first + run.shift) (run.last + run.shift) := by
  decide +kernel

/-- Only numerals have numerals as their upper case. -/
theorem isNumeric_of_upperChar (h : ∀ d ∈ upperChar c, isNumeric d = true) :
    isNumeric c = true := by
  rw [upperChar] at h
  split at h
  · next hlt =>
    have hupper := (toUpper_of_lt c.toNat hlt).2
    rw [Char.ofNat_toNat] at hupper
    exact hupper (h _ (List.mem_singleton.mpr rfl))
  · rw [mapChar] at h
    split at h
    · next entry hfind =>
      obtain ⟨code, hcode, havoids⟩ :=
        exists_avoids_of_mem_upperExpansions entry (Array.mem_of_find?_eq_some hfind)
      exact absurd (h _ (List.mem_map_of_mem hcode)) (havoids.not_isNumeric le_rfl le_rfl)
    · split at h
      · next run hfind =>
        have havoids := avoids_of_mem_upperRuns run (Array.mem_of_find?_eq_some hfind)
        have hcovers := Array.find?_some hfind
        simp only [CaseRun.covers, Bool.and_eq_true, decide_eq_true_eq] at hcovers
        have hleast := havoids.1
        refine absurd (h _ (List.mem_singleton.mpr rfl)) (havoids.not_isNumeric ?_ ?_) <;> omega
      · exact h c (List.mem_singleton.mpr rfl)

end

/-! ### Spelling with other marks -/

/-- No character is the mark of an exponent. -/
def Unmarked (cs : List Char) : Prop :=
  ∀ c ∈ cs, c ≠ 'e' ∧ c ≠ 'E'

section

variable {cs ds sign whole fraction : List Char} {n : Numeral} {negative : Bool} {exponent : Int}

theorem AllDigits.unmarked (h : AllDigits cs) : Unmarked cs := fun c hc => by
  constructor <;> rintro rfl <;> exact absurd (h _ hc) (by decide)

theorem SignText.unmarked (h : SignText negative cs) : Unmarked cs := by
  cases h <;> simp [Unmarked]

theorem Unmarked.append (h : Unmarked cs) (h' : Unmarked ds) : Unmarked (cs ++ ds) := fun c hc =>
  (List.mem_append.mp hc).elim (h c) (h' c)

theorem MantissaText.unmarked (h : MantissaText whole fraction cs) : Unmarked cs := by
  cases h with
  | plain hwhole => exact hwhole.unmarked
  | pointed hwhole hfraction =>
    refine hwhole.unmarked.append fun c hc => ?_
    rcases List.mem_cons.mp hc with rfl | hc
    · decide
    · exact hfraction.unmarked c hc

/-- Texts that differ in the case of their marks are the same where there are none. -/
theorem Unmarked.eq_of_map_eq (h : Unmarked cs) (heq : ds.map upperMark = cs.map upperMark) :
    ds = cs := by
  have hfixed : cs.map upperMark = cs :=
    (List.map_congr_left fun c hc => if_neg (h c hc).1).trans (List.map_id cs)
  rw [hfixed] at heq
  rw [← heq]
  refine ((List.map_congr_left fun d hd => ?_).trans (List.map_id ds)).symm
  have hd' : upperMark d ∈ cs := heq ▸ List.mem_map_of_mem hd
  exact if_neg fun hmark => (h _ hd').2 (if_pos hmark)

theorem ExponentText.of_map_eq (h : ExponentText exponent cs)
    (heq : ds.map upperMark = cs.map upperMark) : ExponentText exponent ds := by
  cases h with
  | none =>
    rw [List.map_eq_nil_iff.mp heq]
    exact .none
  | @marked mark negative sign digits hmark hsign hdigits hne =>
    obtain ⟨mark', rest, rfl, hmark', hrest⟩ := List.map_eq_cons_iff.mp heq
    rw [(hsign.unmarked.append hdigits.unmarked).eq_of_map_eq hrest]
    refine .marked ?_ hsign hdigits hne
    have hupper : upperMark mark' = 'E' := by
      rw [hmark']
      rcases hmark with rfl | rfl <;> rfl
    by_cases hlower : mark' = 'e'
    · exact .inl hlower
    · exact .inr ((if_neg hlower).symm.trans hupper)

/-- Marks may be written in either case. -/
theorem Spells.of_map_eq (h : Spells cs n) (heq : ds.map upperMark = cs.map upperMark) :
    Spells ds n := by
  cases h with
  | mk hsign hmantissa hne htail =>
    rw [List.map_append, List.map_append] at heq
    obtain ⟨sign', rest, rfl, hsign', hrest⟩ := List.map_eq_append_iff.mp heq
    obtain ⟨mantissa', tail', rfl, hmantissa', htail'⟩ := List.map_eq_append_iff.mp hrest
    rw [hsign.unmarked.eq_of_map_eq hsign', hmantissa.unmarked.eq_of_map_eq hmantissa']
    exact .mk hsign hmantissa hne (htail.of_map_eq htail')

theorem AllDigits.isNumeric (h : AllDigits cs) : ∀ c ∈ cs, isNumeric c = true := fun c hc =>
  isNumeric_of_isDigit (h c hc)

theorem SignText.isNumeric (h : SignText negative cs) : ∀ c ∈ cs, isNumeric c = true := by
  cases h <;> simp [Decimal.isNumeric]

theorem MantissaText.isNumeric (h : MantissaText whole fraction cs) :
    ∀ c ∈ cs, isNumeric c = true := by
  cases h with
  | plain hwhole => exact hwhole.isNumeric
  | pointed hwhole hfraction =>
    exact List.forall_mem_append.mpr
      ⟨hwhole.isNumeric, List.forall_mem_cons.mpr ⟨rfl, hfraction.isNumeric⟩⟩

theorem ExponentText.isNumeric (h : ExponentText exponent cs) : ∀ c ∈ cs, isNumeric c = true := by
  cases h with
  | none => exact nofun
  | @marked mark _ _ _ hmark hsign hdigits hne =>
    have hmark' : Decimal.isNumeric mark = true := by rcases hmark with rfl | rfl <;> rfl
    exact List.forall_mem_cons.mpr
      ⟨hmark', List.forall_mem_append.mpr ⟨hsign.isNumeric, hdigits.isNumeric⟩⟩

/-- Numerals are written with the characters of numerals. -/
theorem Spells.isNumeric (h : Spells cs n) : ∀ c ∈ cs, isNumeric c = true := by
  cases h with
  | mk hsign hmantissa hne htail =>
    exact List.forall_mem_append.mpr
      ⟨hsign.isNumeric, List.forall_mem_append.mpr ⟨hmantissa.isNumeric, htail.isNumeric⟩⟩

theorem spells_flatMap_upperChar : Spells (cs.flatMap upperChar) n ↔ Spells cs n := by
  have hmap (hcs : ∀ c ∈ cs, isNumeric c = true) : cs.flatMap upperChar = cs.map upperMark := by
    rw [List.flatMap_congr fun c hc => upperChar_of_isNumeric (hcs c hc), ← List.map_eq_flatMap]
  have htwice : (cs.map upperMark).map upperMark = cs.map upperMark := by
    rw [List.map_map]
    refine List.map_congr_left fun c _ => ?_
    by_cases hc : c = 'e' <;> simp [upperMark, hc]
  constructor
  · intro h
    have hcs : ∀ c ∈ cs, isNumeric c = true := fun c hc => isNumeric_of_upperChar fun d hd =>
      h.isNumeric d (List.mem_flatMap.mpr ⟨c, hc, hd⟩)
    rw [hmap hcs] at h
    exact h.of_map_eq htwice.symm
  · intro h
    rw [hmap h.isNumeric]
    exact h.of_map_eq htwice

end

/-- **A text and its upper-case text read as the same number**, or neither of them as one. -/
theorem parse?_upper (s : String) : parse? (Text.upper s) = parse? s := by
  have hsame : Numeral.parse? (s.toList.flatMap upperChar) = Numeral.parse? s.toList :=
    Option.ext fun n => by
      rw [parse?_eq_some_iff, parse?_eq_some_iff, spells_flatMap_upperChar]
  rw [parse?, Text.upper, String.toList_ofList, hsame, parse?]

end LogoEngine.Decimal
