import LogoEngine.Proofs.Decimal.Case
import LogoEngine.Proofs.Decimal.Closest

/-!
# What texts read as

A text reads as a number exactly if it spells a numeral, and then as the double that is nearest to
what the numeral denotes: the closest one, and of two as close the one with the even mantissa, or
an infinity from half a place above the greatest double on. The sign is that of the numeral, also
on a zero.

Main statements: `Decimal.Numeral.isNearestDouble_iff` and `Decimal.parse?_spec`.
-/

namespace LogoEngine

open Float.Model Float.Model.UnpackedFloat

/-! ### Numbers that are too large -/

/-- The numbers from half a place above the greatest double on are too large. -/
def tooLarge : ℚ :=
  2 ^ 1024 - 2 ^ 970

section

variable {m : Nat} {e : Int} {q : ℚ}

theorem tooLarge_eq : tooLarge = (2 ^ 54 - 1) * 2 ^ 970 := by
  rw [tooLarge, sub_mul, ← pow_add, one_mul]

theorem InRoom.lt_tooLarge (hroom : InRoom m e q) (h : Fits m e) (hmost : e ≤ 971) :
    q < tooLarge := by
  calc q < (2 ^ 53 - 1 / 2) * 2 ^ e := (div_lt_iff₀ (zpow_pos two_pos e)).mp (hroom.div_lt h.lt)
    _ ≤ (2 ^ 53 - 1 / 2) * 2 ^ (971 : Int) := by
      refine mul_le_mul_of_nonneg_left (zpow_le_zpow_right₀ one_le_two hmost) (by norm_num)
    _ = (2 ^ 53 - 1 / 2) * (2 * 2 ^ 970) := by rw [← pow_succ', ← zpow_natCast]; rfl
    _ = tooLarge := by
      rw [tooLarge_eq, ← mul_assoc]
      norm_num

theorem InRoom.tooLarge_le (hroom : InRoom m e q) (h : Fits m e) (hmost : 971 < e) :
    tooLarge ≤ q := by
  have hlow := hroom.le_div (h.full.resolve_right (by omega)) (by omega)
  calc tooLarge = (2 ^ 52 - 1 / 4) * (2 ^ 2 * 2 ^ 970) := by
        rw [tooLarge_eq, ← mul_assoc]
        norm_num
    _ = (2 ^ 52 - 1 / 4) * 2 ^ (972 : Int) := by rw [← pow_add, ← zpow_natCast]; rfl
    _ ≤ (2 ^ 52 - 1 / 4) * 2 ^ e := by
      refine mul_le_mul_of_nonneg_left (zpow_le_zpow_right₀ one_le_two hmost) (by norm_num)
    _ ≤ q := (le_div_iff₀ (zpow_pos two_pos e)).mp hlow

/-- What is less than half the least double is in the room of zero. -/
theorem inRoom_zero (hq : 0 ≤ q) (hsmall : q ≤ 10 ^ (-Decimal.scaleLimit)) :
    InRoom 0 (-1074) q := by
  have hhalf : q / 2 ^ (-1074 : Int) < 1 / 2 := by
    rw [div_lt_iff₀ (zpow_pos two_pos _)]
    have hten : (2 : ℚ) ^ (1076 : Int) ≤ 10 ^ (400 : Int) :=
      Decimal.two_zpow_le_ten_zpow (k := 1076) (l := 400) (by decide)
    calc q ≤ (10 ^ (400 : Int))⁻¹ := hsmall.trans_eq (zpow_neg ..)
      _ ≤ (2 ^ (1076 : Int))⁻¹ := inv_anti₀ (zpow_pos two_pos _) hten
      _ = 2 ^ (-2 : Int) * 2 ^ (-1074 : Int) := by rw [← zpow_neg, ← zpow_add₀ two_ne_zero]; rfl
      _ < 1 / 2 * 2 ^ (-1074 : Int) := by
        refine mul_lt_mul_of_pos_right ?_ (zpow_pos two_pos _)
        norm_num
  have hpos : 0 ≤ q / 2 ^ (-1074 : Int) := div_nonneg hq (zpow_pos two_pos _).le
  refine .of_isNearest (.of_lt ?_ ?_) (.inr rfl) <;> generalize q / 2 ^ (-1074 : Int) = y at * <;>
    push_cast <;> linarith

end

/-! ### Numerals -/

/-- A double is the **nearest** to a number with a sign: the closest one, or an infinity if the
number is too large. It has the sign also if it is a zero. -/
inductive IsNearestDouble (negative : Bool) (q : ℚ) (x : Float) : Prop
  | finite (hsmall : |q| < tooLarge) (hclosest : IsClosest q x) (hsign : isNegative x = negative)
  | infinite (hlarge : tooLarge ≤ |q|) (hx : Decimal.Binary.ofFloat x = .infinite negative)

namespace Decimal

theorem unpack_signed (negative : Bool) (x : Float) :
    (signed negative x).toModel.unpack =
      if negative then x.toModel.unpack.neg else x.toModel.unpack := by
  cases negative with
  | true => exact unpack_neg x
  | false => rfl

namespace Numeral

variable (n : Numeral)

theorem magnitude_nonneg : 0 ≤ n.magnitude := by
  rw [magnitude]
  positivity

theorem abs_value : |n.value| = n.magnitude :=
  abs_withSign _ n.magnitude_nonneg

/-- A numeral is read as a finite double in whose room it is, or else is too large. -/
theorem toFloat_cases :
    (∃ m e, HasParts n.toFloat (signOf n.negative) m e ∧ InRoom m e n.magnitude) ∨
      n.toFloat.toModel.unpack = .infinity (signOf n.negative) ∧ tooLarge ≤ n.magnitude := by
  have hten : (1 : ℚ) ≤ 10 := by norm_num
  by_cases hd : n.digits = 0
  · refine .inl ⟨0, -1074, hasParts_of_zero (toFloat_of_digits_eq_zero hd),
      inRoom_zero n.magnitude_nonneg ?_⟩
    rw [magnitude, hd, Nat.cast_zero, zero_mul]
    exact (zpow_pos (by norm_num) _).le
  rcases le_or_gt scaleLimit n.leastExponent with hleast | hleast
  · refine .inr ⟨toFloat_of_le_leastExponent hd hleast, ?_⟩
    calc tooLarge ≤ 2 ^ (1024 : Int) := sub_le_self _ (pow_nonneg zero_le_two _)
      _ ≤ 10 ^ scaleLimit := two_zpow_le_ten_zpow (k := 1024) (l := 400) (by decide)
      _ ≤ 10 ^ n.leastExponent := zpow_le_zpow_right₀ hten hleast
      _ ≤ n.magnitude := ten_zpow_leastExponent_le hd
  rcases le_or_gt n.limitExponent (-scaleLimit) with hlimit | hlimit
  · refine .inl ⟨0, -1074, hasParts_of_zero (toFloat_of_limitExponent_le hd hleast hlimit),
      inRoom_zero n.magnitude_nonneg ?_⟩
    exact n.magnitude_lt_ten_zpow_limitExponent.le.trans (zpow_le_zpow_right₀ hten hlimit)
  -- between the limits it is rounded, and then packed
  obtain ⟨x, u, hx, ⟨m, e, hfits, hroom, rfl⟩, hpack⟩ := exists_rounds hd hleast hlimit
  rw [hx]
  have hunpack : ∀ {u : UnpackedFloat}, IsDouble u → Float.Model.pack (ofParts .positive m e) =
      Float.Model.pack u → (signed n.negative x).toModel.unpack = if n.negative then u.neg else u :=
    fun hu heq => by rw [unpack_signed, hpack, heq, hu.unpack_pack]
  rcases Nat.eq_zero_or_pos m with rfl | hpos
  · obtain rfl : e = -1074 := hfits.full.resolve_left (by decide)
    refine .inl ⟨0, -1074, hasParts_of_zero ((hunpack (.zero .positive) rfl).trans ?_), hroom⟩
    cases n.negative <;> rfl
  have hparts : ofParts .positive m e = .finite .positive m e hpos := dif_neg hpos.ne'
  rcases le_or_gt e 971 with hmost | hmost
  · have h : IsMagnitude m e := ⟨hpos, hfits.lt, hfits.least, hmost, hfits.full⟩
    refine .inl ⟨m, e, hasParts_of_finite h ((hunpack (.finite .positive h) ?_).trans ?_), hroom⟩
    · rw [hparts]
    · cases n.negative <;> rfl
  · refine .inr ⟨(hunpack (.infinity .positive) ?_).trans ?_, hroom.tooLarge_le hfits hmost⟩
    · rw [hparts, pack_of_lt _ _ hmost]
    · cases n.negative <;> rfl

/-- **A numeral is read as the nearest double**, and no other one is this. -/
theorem isNearestDouble_iff {x : Float} : IsNearestDouble n.negative n.value x ↔ x = n.toFloat := by
  have hminus : isMinus (signOf n.negative) = n.negative := by cases n.negative <;> rfl
  rcases n.toFloat_cases with ⟨m, e, hparts, hroom⟩ | ⟨hinfinite, hlarge⟩
  · have hsmall := hroom.lt_tooLarge hparts.fits hparts.most
    constructor
    · rintro (⟨-, hclosest, hsign⟩ | ⟨hlarge, -⟩)
      · exact hparts.eq_of_isClosest hroom n.magnitude_nonneg hclosest (hsign.trans hminus.symm)
      · rw [abs_value] at hlarge
        exact absurd hsmall (not_lt.mpr hlarge)
    · rintro rfl
      refine .finite ?_ (hparts.isClosest hroom n.magnitude_nonneg)
        (hparts.isNegative_eq.trans hminus)
      rwa [abs_value]
  · constructor
    · rintro (⟨hsmall, -, -⟩ | ⟨-, hx⟩)
      · rw [abs_value] at hsmall
        exact absurd hsmall (not_lt.mpr hlarge)
      · refine eq_of_unpack_eq (Eq.trans ?_ hinfinite.symm)
        rw [Binary.ofFloat_eq] at hx
        generalize x.toModel.unpack = u at hx
        cases u with
        | notANumber | zero s | finite s m e => cases hx
        | infinity s =>
          rw [Binary.ofUnpacked, Binary.infinite.injEq] at hx
          rw [← hx, signOf_isMinus]
    · rintro rfl
      refine .infinite ?_ ?_
      · rwa [abs_value]
      · rw [Binary.ofFloat_eq, hinfinite, Binary.ofUnpacked, hminus]

end Numeral

/-! ### Texts -/

theorem parse?_eq_toFloat_iff {s : String} {x : Float} :
    parse? s = some x ↔ ∃ n, Spells s.toList n ∧ n.toFloat = x := by
  simp only [parse?, Option.map_eq_some_iff, parse?_eq_some_iff]

/-- **Numbers are exactly what their grammar says.** A text reads as a number if and only if it
spells a numeral, and it reads as the nearest double. So the empty text is no number, and neither
is one with any other character than digits, signs, a point and the mark of an exponent: with
another letter, as in `inf`, `nan` and hexadecimals, with an underscore or a blank, or with a digit
that is not ASCII. -/
theorem parse?_spec (s : String) :
    ((∃ x, parse? s = some x) ↔ ∃ n, Spells s.toList n) ∧
      (∀ x, parse? s = some x ↔ ∃ n, Spells s.toList n ∧ IsNearestDouble n.negative n.value x) ∧
      (s = "" ∨ (∃ c ∈ s.toList, isNumeric c = false) → parse? s = none) := by
  refine ⟨?_, fun x => ?_, ?_⟩
  · simp only [parse?_eq_toFloat_iff]
    constructor
    · rintro ⟨x, n, hspells, -⟩
      exact ⟨n, hspells⟩
    · rintro ⟨n, hspells⟩
      exact ⟨_, n, hspells, rfl⟩
  · simp only [parse?_eq_toFloat_iff, Numeral.isNearestDouble_iff, @eq_comm _ x]
  · rintro (rfl | ⟨c, hc, hforeign⟩)
    · rfl
    · refine Option.eq_none_iff_forall_ne_some.mpr fun x hx => ?_
      obtain ⟨n, hspells, -⟩ := parse?_eq_toFloat_iff.mp hx
      rw [hspells.isNumeric c hc] at hforeign
      cases hforeign

theorem parse?_underscored :
    (∃ c ∈ "1_000".toList, isNumeric c = false) ∧ parse? "1_000" = none :=
  have hforeign : ∃ c ∈ "1_000".toList, isNumeric c = false := ⟨'_', by decide, by decide⟩
  ⟨hforeign, (parse?_spec "1_000").2.2 (.inr hforeign)⟩

end Decimal

end LogoEngine
