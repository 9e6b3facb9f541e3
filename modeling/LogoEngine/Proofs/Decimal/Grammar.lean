import LogoEngine.Decimal.Numeral
import Mathlib

/-!
# The grammar of numerals

A numeral is written as an optional sign, digits with at most one point among them, and an optional
exponent (`Spells`). Reading splits off one part after the other, and each part ends where the next
one begins: a point is no digit, and neither is the mark of an exponent.

Main statement: `Spells.parse?_eq`.
-/

namespace LogoEngine.Decimal

/-- All characters are digits. -/
def AllDigits (cs : List Char) : Prop :=
  ∀ c ∈ cs, c.isDigit = true

/-- An optional sign, and whether it is a minus. -/
inductive SignText : Bool → List Char → Prop
  | none : SignText false []
  | minus : SignText true ['-']
  | plus : SignText false ['+']

/-- Digits with at most one point: those before it and those after it. -/
inductive MantissaText : List Char → List Char → List Char → Prop
  | plain {whole : List Char} (hwhole : AllDigits whole) : MantissaText whole [] whole
  | pointed {whole fraction : List Char} (hwhole : AllDigits whole) (hfraction : AllDigits fraction) :
      MantissaText whole fraction (whole ++ '.' :: fraction)

/-- An optional exponent. -/
inductive ExponentText : Int → List Char → Prop
  | none : ExponentText 0 []
  | marked {mark : Char} {negative : Bool} {sign digits : List Char} (hmark : mark = 'e' ∨ mark = 'E')
      (hsign : SignText negative sign) (hdigits : AllDigits digits) (hne : digits ≠ []) :
      ExponentText (if negative then -(digitsValue digits : Int) else digitsValue digits)
        (mark :: (sign ++ digits))

/-- A text spells a numeral. -/
inductive Spells : List Char → Numeral → Prop
  | mk {negative : Bool} {exponent : Int} {sign whole fraction mantissa tail : List Char}
      (hsign : SignText negative sign) (hmantissa : MantissaText whole fraction mantissa)
      (hne : whole ++ fraction ≠ []) (htail : ExponentText exponent tail) :
      Spells (sign ++ (mantissa ++ tail))
        ⟨negative, digitsValue (whole ++ fraction), exponent - fraction.length⟩

section

variable {cs rest whole fraction mantissa tail sign : List Char} {exponent : Int} {negative : Bool}

/-- Digits are split off up to the first character that is none. -/
theorem takeDigits_append (hdigits : AllDigits cs) (hrest : ∀ c ∈ rest.head?, c.isDigit = false) :
    takeDigits (cs ++ rest) = (cs, rest) := by
  have htake : rest.takeWhile Char.isDigit = [] ∧ rest.dropWhile Char.isDigit = rest := by
    cases rest with
    | nil => exact ⟨rfl, rfl⟩
    | cons c rest =>
      have hc : c.isDigit = false := hrest c rfl
      simp [hc]
  rw [takeDigits, List.takeWhile_append_of_pos hdigits, List.dropWhile_append_of_pos hdigits,
    htake.1, htake.2, List.append_nil]

theorem takeDigits_of_allDigits (hdigits : AllDigits cs) : takeDigits cs = (cs, []) := by
  have htake : takeDigits (cs ++ []) = (cs, []) := takeDigits_append hdigits nofun
  rwa [List.append_nil] at htake

/-- A sign is split off what starts with no sign. -/
theorem takeSign_append (hsign : SignText negative sign)
    (hrest : ∀ c ∈ rest.head?, c ≠ '-' ∧ c ≠ '+') : takeSign (sign ++ rest) = (negative, rest) := by
  cases hsign with
  | minus => rfl
  | plus => rfl
  | none =>
    cases rest with
    | nil => rfl
    | cons c rest =>
      obtain ⟨hminus, hplus⟩ := hrest c rfl
      simp [takeSign, hminus, hplus]

/-- What starts with a digit or a point starts with no sign. -/
theorem ne_sign_of_isDigit {c : Char} (hc : c.isDigit = true ∨ c = '.') : c ≠ '-' ∧ c ≠ '+' := by
  constructor <;> rintro rfl <;> rcases hc with hc | hc <;> revert hc <;> decide

theorem readExponent_eq (htail : ExponentText exponent tail) : readExponent tail = some exponent := by
  cases htail with
  | none => rfl
  | @marked mark negative sign digits hmark hsign hdigits hne =>
    have hfirst : ∀ c ∈ digits.head?, c ≠ '-' ∧ c ≠ '+' := fun c hc =>
      ne_sign_of_isDigit (.inl (hdigits c (List.mem_of_head? hc)))
    have hmark : (mark == 'e' || mark == 'E') = true := by simpa using hmark
    rw [readExponent, if_pos hmark, takeSign_append hsign hfirst]
    simp [takeDigits_of_allDigits hdigits, hne]

/-- An exponent starts with no digit and no point. -/
theorem ExponentText.head (htail : ExponentText exponent tail) :
    ∀ c ∈ tail.head?, c.isDigit = false ∧ c ≠ '.' := by
  cases htail with
  | none => exact nofun
  | marked hmark =>
    intro c hc
    obtain rfl := Option.some_inj.mp hc
    rcases hmark with rfl | rfl <;> decide

theorem takeMantissa_append (hmantissa : MantissaText whole fraction mantissa)
    (htail : ExponentText exponent tail) :
    takeMantissa (mantissa ++ tail) = (whole, fraction, tail) := by
  cases hmantissa with
  | plain hwhole =>
    rw [takeMantissa, takeDigits_append hwhole fun c hc => (htail.head c hc).1]
    cases tail with
    | nil => rfl
    | cons c tail =>
      have hpoint : c ≠ '.' := (htail.head c rfl).2
      simp [hpoint]
  | pointed hwhole hfraction =>
    have hpoint : ∀ c ∈ ('.' :: (fraction ++ tail)).head?, c.isDigit = false := by
      intro c hc
      obtain rfl := Option.some_inj.mp hc
      decide
    rw [takeMantissa, List.append_assoc, List.cons_append, takeDigits_append hwhole hpoint]
    simp only [takeDigits_append hfraction fun c hc => (htail.head c hc).1]

/-- A mantissa starts with a digit or a point. -/
theorem MantissaText.head (hmantissa : MantissaText whole fraction mantissa)
    (hne : whole ++ fraction ≠ []) :
    ∃ c rest, mantissa = c :: rest ∧ (c.isDigit = true ∨ c = '.') := by
  cases hmantissa with
  | plain hwhole =>
    obtain ⟨c, rest, rfl⟩ := List.exists_cons_of_ne_nil (by simpa using hne)
    exact ⟨c, rest, rfl, .inl (hwhole c List.mem_cons_self)⟩
  | pointed hwhole hfraction =>
    cases whole with
    | nil => exact ⟨'.', fraction, rfl, .inr rfl⟩
    | cons c rest => exact ⟨c, _, rfl, .inl (hwhole c List.mem_cons_self)⟩

end

/-- **What spells a numeral is read as it.** -/
theorem Spells.parse?_eq {cs : List Char} {n : Numeral} (h : Spells cs n) :
    Numeral.parse? cs = some n := by
  cases h with
  | @mk negative exponent sign whole fraction mantissa tail hsign hmantissa hne htail =>
    have hfirst : ∀ c ∈ (mantissa ++ tail).head?, c ≠ '-' ∧ c ≠ '+' := by
      obtain ⟨c, rest, rfl, hc⟩ := hmantissa.head hne
      intro d hd
      obtain rfl := Option.some_inj.mp hd
      exact ne_sign_of_isDigit hc
    have hsome : (whole.isEmpty && fraction.isEmpty) = false := by
      rw [← Bool.not_eq_true, Bool.and_eq_true, List.isEmpty_iff, List.isEmpty_iff]
      rintro ⟨rfl, rfl⟩
      exact hne rfl
    rw [Numeral.parse?, takeSign_append hsign hfirst]
    simp only [takeMantissa_append hmantissa htail, hsome, readExponent_eq htail]
    rfl

/-! ### What is read -/

section

variable {cs : List Char}

theorem takeSign_spec (cs : List Char) :
    ∃ sign, SignText (takeSign cs).1 sign ∧ cs = sign ++ (takeSign cs).2 := by
  unfold takeSign
  split
  · exact ⟨_, .minus, rfl⟩
  · exact ⟨_, .plus, rfl⟩
  · exact ⟨_, .none, rfl⟩

theorem takeDigits_spec (cs : List Char) :
    AllDigits (takeDigits cs).1 ∧ cs = (takeDigits cs).1 ++ (takeDigits cs).2 :=
  ⟨fun _ hc => List.mem_takeWhile_imp hc, (List.takeWhile_append_dropWhile).symm⟩

theorem takeMantissa_spec (cs : List Char) :
    ∃ mantissa, MantissaText (takeMantissa cs).1 (takeMantissa cs).2.1 mantissa ∧
      cs = mantissa ++ (takeMantissa cs).2.2 := by
  obtain ⟨hwhole, hsplit⟩ := takeDigits_spec cs
  generalize hdigits : takeDigits cs = parts at hwhole hsplit
  obtain ⟨whole, rest⟩ := parts
  simp only [takeMantissa, hdigits]
  split
  · next rest =>
    obtain ⟨hfraction, hsplit'⟩ := takeDigits_spec rest
    refine ⟨_, .pointed hwhole hfraction, ?_⟩
    rw [List.append_assoc, List.cons_append, ← hsplit']
    exact hsplit
  · exact ⟨_, .plain hwhole, hsplit⟩

theorem exponentText_of_readExponent {exponent : Int} (h : readExponent cs = some exponent) :
    ExponentText exponent cs := by
  cases cs with
  | nil =>
    cases h
    exact .none
  | cons mark rest =>
    obtain ⟨sign, hsign, hrest⟩ := takeSign_spec rest
    obtain ⟨hdigits, hsplit⟩ := takeDigits_spec (takeSign rest).2
    rw [readExponent] at h
    split at h
    · next hmark =>
      dsimp only at h
      split at h
      · cases h
      · next hends =>
        obtain ⟨hne, hend⟩ : (takeDigits (takeSign rest).2).1 ≠ [] ∧
            (takeDigits (takeSign rest).2).2 = [] := by simpa using hends
        rw [hend, List.append_nil] at hsplit
        cases h
        have hmarked := ExponentText.marked (by simpa using hmark) hsign hdigits hne
        rwa [← hsplit, ← hrest, hsplit] at hmarked
    · cases h

/-- **Numerals are what their grammar says.** -/
theorem parse?_eq_some_iff {n : Numeral} : Numeral.parse? cs = some n ↔ Spells cs n := by
  refine ⟨fun h => ?_, Spells.parse?_eq⟩
  obtain ⟨sign, hsign, hcs⟩ := takeSign_spec cs
  obtain ⟨mantissa, hmantissa, hrest⟩ := takeMantissa_spec (takeSign cs).2
  rw [Numeral.parse?] at h
  dsimp only at h
  split at h
  · cases h
  · next hsome =>
    obtain ⟨exponent, hexponent, hn⟩ := Option.map_eq_some_iff.mp h
    have hne : (takeMantissa (takeSign cs).2).1 ++ (takeMantissa (takeSign cs).2).2.1 ≠ [] := by
      simpa using hsome
    have hspells := Spells.mk hsign hmantissa hne (exponentText_of_readExponent hexponent)
    rwa [← hrest, ← hcs, hn] at hspells

end

end LogoEngine.Decimal
