import LogoEngine.Arithmetic.Compare
import LogoEngine.Arithmetic.Int32
import Mathlib

/-!
# Whole numbers as doubles

A whole number below 2 to the power of 53 has exactly one double besides the sign of zero: its
leading bit moved to the front is the mantissa. So such doubles compare as the numbers do, truncation
takes each to its number, and sums that stay in bounds are exact.

Main statements: `isInt32_iff`, the doubles that survive the round trip are the 32-bit integers;
`Integer32.Is.ofFloat_eq` and `Integer64.ofFloat_eq`, what conversion makes of them;
`Integer32.Is.le_iff` and `Integer32.Is.lt_iff`, their order; `IsNatural.succ`, counting in doubles.
-/

namespace LogoEngine

open Float.Model Float.Model.UnpackedFloat

/-! ### Mantissas -/

/-- The mantissa of a positive whole number as a double: its leading bit is moved to the front. -/
def wholeMantissa (m : Nat) : Nat :=
  m * 2 ^ (52 - m.log2)

section

variable {m m' : Nat}

theorem log2_le_of_lt (hm : m < 2 ^ 53) : m.log2 ≤ 52 := by
  rcases Nat.eq_zero_or_pos m with rfl | hpos
  · decide
  · exact Nat.le_of_lt_succ ((Nat.log2_lt (Nat.ne_of_gt hpos)).mpr hm)

/-- The leading bit is the first one. -/
theorem wholeMantissa_bounds (hpos : 0 < m) (hm : m < 2 ^ 53) :
    2 ^ 52 ≤ wholeMantissa m ∧ wholeMantissa m < 2 ^ 53 := by
  have hlog : m.log2 ≤ 52 := log2_le_of_lt hm
  have hlow : 2 ^ m.log2 ≤ m := Nat.log2_self_le (Nat.ne_of_gt hpos)
  have hhigh : m < 2 ^ (m.log2 + 1) := Nat.lt_log2_self
  constructor
  · calc 2 ^ 52 = 2 ^ m.log2 * 2 ^ (52 - m.log2) := by rw [← Nat.pow_add, Nat.add_sub_cancel' hlog]
      _ ≤ wholeMantissa m := Nat.mul_le_mul_right _ hlow
  · calc wholeMantissa m < 2 ^ (m.log2 + 1) * 2 ^ (52 - m.log2) :=
        Nat.mul_lt_mul_of_pos_right hhigh (Nat.two_pow_pos _)
      _ = 2 ^ 53 := by
        rw [← Nat.pow_add]
        congr 1
        omega

theorem wholeMantissa_pos (hpos : 0 < m) : 0 < wholeMantissa m :=
  Nat.mul_pos hpos (Nat.two_pow_pos _)

theorem log2_wholeMantissa (hpos : 0 < m) (hm : m < 2 ^ 53) : (wholeMantissa m).log2 = 52 :=
  (Nat.log2_eq_iff (Nat.ne_of_gt (wholeMantissa_pos hpos))).mpr (wholeMantissa_bounds hpos hm)

/-- Exponents and mantissas are ordered as the numbers are. -/
theorem compare_whole (hpos : 0 < m) (hpos' : 0 < m') :
    (compare ((m.log2 : Int) - 52) (m'.log2 - 52)).then
      (compare (wholeMantissa m) (wholeMantissa m')) = compare m m' := by
  have hsmaller : ∀ {a b : Nat}, 0 < a → 0 < b → a.log2 < b.log2 → a < b := fun ha hb h =>
    Nat.lt_of_lt_of_le ((Nat.log2_lt (Nat.ne_of_gt ha)).mp h) (Nat.log2_self_le (Nat.ne_of_gt hb))
  rcases Nat.lt_trichotomy m.log2 m'.log2 with h | h | h
  · rw [Int.compare_eq_lt.mpr (by omega), Nat.compare_eq_lt.mpr (hsmaller hpos hpos' h)]
    rfl
  · have hscale : compare (wholeMantissa m) (wholeMantissa m') = compare m m' := by
      have htwo : 0 < 2 ^ (52 - m'.log2) := Nat.two_pow_pos _
      simp only [wholeMantissa, h, Nat.compare_eq_ite_lt, Nat.mul_lt_mul_right htwo]
    rw [h, Int.compare_eq_eq.mpr rfl, hscale]
    rfl
  · rw [Int.compare_eq_gt.mpr (by omega), Nat.compare_eq_gt.mpr (hsmaller hpos' hpos h)]
    rfl

end

/-! ### Whole numbers -/

/-- An unpacked double is a whole number. -/
inductive Whole : UnpackedFloat → Int → Prop
  | zero (s : Sign) : Whole (.zero s) 0
  | finite (s : Sign) {m : Nat} (hpos : 0 < m) (hm : m < 2 ^ 53) :
      Whole (.finite s (wholeMantissa m) (m.log2 - 52) (wholeMantissa_pos hpos)) (s.apply m)

namespace Whole

variable {u v : UnpackedFloat} {z z' : Int}

/-- Whole numbers compare as doubles as they do as integers. -/
theorem compare_eq (h : Whole u z) (h' : Whole v z') : u.compare v = some (compare z z') := by
  have hlt : ∀ {a b : Int}, a < b → some Ordering.lt = some (compare a b) := fun h => by
    rw [Int.compare_eq_lt.mpr h]
  have hgt : ∀ {a b : Int}, b < a → some Ordering.gt = some (compare a b) := fun h => by
    rw [Int.compare_eq_gt.mpr h]
  cases h with
  | zero s =>
    cases h' with
    | zero s' => rfl
    | @finite s' m' hpos' hm' =>
      cases s' with
      | positive => exact hlt (show (0 : Int) < m' by omega)
      | negative => exact hgt (show -(m' : Int) < 0 by omega)
  | @finite s m hpos hm =>
    cases h' with
    | zero s' =>
      cases s with
      | positive => exact hgt (show (0 : Int) < m by omega)
      | negative => exact hlt (show -(m : Int) < 0 by omega)
    | @finite s' m' hpos' hm' =>
      have hcast : compare (m : Int) (m' : Int) = compare m m' := by
        simp only [Int.compare_eq_ite_lt, Nat.compare_eq_ite_lt, Int.ofNat_lt]
      have hneg : compare (-(m : Int)) (-(m' : Int)) = (compare m m').swap := by
        rw [← hcast, Int.compare_swap]
        simp only [Int.compare_eq_ite_lt, Int.neg_lt_neg_iff]
      cases s with
      | positive =>
        cases s' with
        | positive => exact congrArg some ((compare_whole hpos hpos').trans hcast.symm)
        | negative => exact hgt (show -(m' : Int) < m by omega)
      | negative =>
        cases s' with
        | positive => exact hlt (show -(m : Int) < m' by omega)
        | negative =>
          exact congrArg some ((congrArg Ordering.swap (compare_whole hpos hpos')).trans hneg.symm)

/-- What equals a whole number is one. -/
theorem of_compare_eq (h : Whole u z) (heq : u.compare v = some .eq) : Whole v z := by
  cases h with
  | zero s =>
    cases v with
    | zero s' => exact .zero s'
    | notANumber => cases heq
    | infinity s' => cases s' <;> cases heq
    | finite s' m' e' hpos' => cases s' <;> cases heq
  | @finite s m hpos hm =>
    cases v with
    | zero s' => cases s <;> cases heq
    | notANumber => cases s <;> cases heq
    | infinity s' => cases s <;> cases s' <;> cases heq
    | finite s' m' e' hpos' =>
      have hsame : (compare ((m.log2 : Int) - 52) e').then (compare (wholeMantissa m) m') = .eq →
          e' = m.log2 - 52 ∧ m' = wholeMantissa m := by
        intro h
        rw [Ordering.then_eq_eq, Int.compare_eq_eq, Nat.compare_eq_eq] at h
        exact ⟨h.1.symm, h.2.symm⟩
      cases s <;> cases s' <;> simp only [UnpackedFloat.compare, Option.some.injEq] at heq
      · rw [Ordering.swap_eq_eq] at heq
        obtain ⟨rfl, rfl⟩ := hsame heq
        exact .finite .negative hpos hm
      · cases heq
      · cases heq
      · obtain ⟨rfl, rfl⟩ := hsame heq
        exact .finite .positive hpos hm

/-! ### Truncation and rounding -/

/-- Shifting to the right divides. -/
theorem mantissa_shiftRight (em : ExtendedMantissa) (k : Nat) :
    (em >>> k).mantissa = em.mantissa / 2 ^ k := by
  show (Nat.repeat ExtendedMantissa.shiftRightOne k em).mantissa = _
  induction k with
  | zero => simp [Nat.repeat]
  | succ k ih =>
    rw [Nat.repeat, ExtendedMantissa.shiftRightOne, ih, Nat.div_div_eq_div_mul, ← Nat.pow_succ]

/-- A whole number is truncated to itself. -/
theorem toInt_eq (h : Whole u z) (low high : Int) : u.toInt low high = z := by
  cases h with
  | zero => rfl
  | @finite s m hpos hm =>
    have hlog : m.log2 ≤ 52 := log2_le_of_lt hm
    have hup : ((m.log2 : Int) - 52).toNat = 0 := by omega
    have hdown : (0 - ((m.log2 : Int) - 52)).toNat = 52 - m.log2 := by omega
    have hmantissa : wholeMantissa m / 2 ^ (52 - m.log2) = m :=
      Nat.mul_div_cancel m (Nat.two_pow_pos _)
    simp only [UnpackedFloat.toInt, roundToInt, decreaseExponent, shiftToExponent, Int.sub_zero,
      hup, Nat.shiftLeft_zero, Int.natCast_zero, hdown, mantissa_shiftRight]
    rw [ExtendedMantissa.ofMantissaAndAccuracy, hmantissa]

/-- Shifting zeros out on the right loses nothing. -/
theorem shiftRight_exact (m k : Nat) :
    (⟨m * 2 ^ k, false, false⟩ : ExtendedMantissa) >>> k = ⟨m, false, false⟩ := by
  show Nat.repeat ExtendedMantissa.shiftRightOne k _ = _
  induction k generalizing m with
  | zero => simp [Nat.repeat]
  | succ k ih =>
    have htwice : m * 2 ^ (k + 1) = m * 2 * 2 ^ k := by
      rw [Nat.pow_succ, Nat.mul_assoc, Nat.mul_comm 2]
    have hrest : m * 2 % 2 = 0 := Nat.mul_mod_left m 2
    rw [Nat.repeat, htwice, ih]
    simp [ExtendedMantissa.shiftRightOne, hrest]

theorem log2_mul_two_pow {m : Nat} (hpos : 0 < m) (j : Nat) : (m * 2 ^ j).log2 = m.log2 + j := by
  refine (Nat.log2_eq_iff (Nat.ne_of_gt (Nat.mul_pos hpos (Nat.two_pow_pos j)))).mpr ⟨?_, ?_⟩
  · rw [Nat.pow_add]
    exact Nat.mul_le_mul_right _ (Nat.log2_self_le (Nat.ne_of_gt hpos))
  · rw [Nat.add_right_comm, Nat.pow_add]
    exact Nat.mul_lt_mul_of_pos_right Nat.lt_log2_self (Nat.two_pow_pos j)

/-- The exponent that a number which is not tiny is brought to. -/
theorem targetExponent_eq {m : Nat} {e : Int} (h : -1000 ≤ (m.log2 : Int) + e) :
    Format.binary64.targetExponent (totalExponent m e) = m.log2 + e - 52 := by
  have hmin : Format.binary64.minExponent = -1074 := by decide
  have hbits : (Format.binary64.mantissaBits : Int) = 53 := by decide
  rw [Format.targetExponent, totalExponent, hmin, hbits]
  omega

/-- A whole number whose leading bit is not behind the front is moved to the front. -/
theorem shiftToTargetExponent_eq {m k : Nat} (hpos : 0 < m) (hm : m < 2 ^ 53) (hk : k ≤ m.log2) :
    shiftToTargetExponent .binary64 (m * 2 ^ (52 - k)) (k - 52) .exact =
      (⟨wholeMantissa m, false, false⟩, (m.log2 : Int) - 52) := by
  have hlog : m.log2 ≤ 52 := log2_le_of_lt hm
  have hlength : ((m * 2 ^ (52 - k)).log2 : Int) = m.log2 + (52 - k) := by
    rw [log2_mul_two_pow hpos]
    omega
  have hshift : ((m.log2 : Int) - 52 - (k - 52)).toNat = m.log2 - k := by omega
  have hmantissa : m * 2 ^ (52 - k) = wholeMantissa m * 2 ^ (m.log2 - k) := by
    rw [wholeMantissa, Nat.mul_assoc, ← Nat.pow_add]
    congr 2
    omega
  have htarget : Format.binary64.targetExponent (totalExponent (m * 2 ^ (52 - k)) (k - 52)) =
      m.log2 - 52 := by
    rw [targetExponent_eq (by omega), hlength]
    omega
  rw [shiftToTargetExponent, htarget, shiftToExponent]
  simp only [hshift, ExtendedMantissa.ofMantissaAndAccuracy, Prod.mk.injEq]
  refine ⟨?_, by omega⟩
  rw [hmantissa]
  exact shiftRight_exact _ _

/-- Rounding a whole number leaves it as it is, also if it comes with places behind the point. -/
theorem round_eq (s : Sign) {m j : Nat} (hpos : 0 < m) (hm : m < 2 ^ 53) (hj : j ≤ 52) :
    UnpackedFloat.round .binary64 s (m * 2 ^ j) (-(j : Int)) =
      .finite s (wholeMantissa m) (m.log2 - 52) (wholeMantissa_pos hpos) := by
  have hlog : m.log2 ≤ 52 := log2_le_of_lt hm
  have hlength : ((m * 2 ^ j).log2 : Int) = m.log2 + j := by
    rw [log2_mul_two_pow hpos]
    omega
  have htarget : Format.binary64.targetExponent (totalExponent (m * 2 ^ j) (-(j : Int))) =
      m.log2 - 52 := by
    rw [targetExponent_eq (by omega), hlength]
    omega
  -- the mantissa is moved towards the front if there are fewer places than that needs
  obtain ⟨k, hk⟩ : ∃ k, k = min m.log2 (52 - j) := ⟨_, rfl⟩
  have hmoved : decreaseExponent (m * 2 ^ j) (-(j : Int)) ((m.log2 : Int) - 52) =
      (m * 2 ^ (52 - k), (k : Int) - 52) := by
    have hplaces : (-(j : Int) - (m.log2 - 52)).toNat = 52 - k - j := by omega
    simp only [decreaseExponent, hplaces, Nat.shiftLeft_eq, Nat.mul_assoc, ← Nat.pow_add,
      Prod.mk.injEq]
    refine ⟨?_, by omega⟩
    congr 2
    omega
  have hrounded : (⟨wholeMantissa m, false, false⟩ : ExtendedMantissa).roundedMantissa =
      wholeMantissa m := rfl
  have hne : wholeMantissa m ≠ 0 := Nat.ne_of_gt (wholeMantissa_pos hpos)
  have hagain : shiftToTargetExponent .binary64 (wholeMantissa m) (m.log2 - 52) .exact =
      (⟨wholeMantissa m, false, false⟩, (m.log2 : Int) - 52) :=
    shiftToTargetExponent_eq hpos hm (Nat.le_refl _)
  rw [UnpackedFloat.round, htarget, hmoved]
  simp only [roundWithAccuracy, shiftToTargetExponent_eq hpos hm (hk ▸ Nat.min_le_left _ _),
    hrounded, hagain, dif_neg hne]

/-- An integer with places behind the point becomes the whole number that it is. -/
theorem normalize {z : Int} {j : Nat} (hlow : -2 ^ 53 < z) (hhigh : z < 2 ^ 53) (hj : j ≤ 52)
    (zeroSign : Sign) :
    Whole (UnpackedFloat.normalize .binary64 (z * 2 ^ j) (-(j : Int)) zeroSign) z := by
  have hround : ∀ (s : Sign) (m : Nat), 0 < m → m < 2 ^ 53 →
      Whole (UnpackedFloat.round .binary64 s (m * 2 ^ j) (-(j : Int))) (s.apply m) :=
    fun s m hpos hm => by
      rw [Whole.round_eq s hpos hm hj]
      exact .finite s hpos hm
  have htwo : (0 : Int) < 2 ^ j := Int.pow_pos (by decide)
  have hcast : ∀ m : Nat, ((m : Int) * 2 ^ j) = ((m * 2 ^ j : Nat) : Int) := fun m => by
    rw [Int.natCast_mul, Int.natCast_pow]
    rfl
  rw [UnpackedFloat.normalize]
  -- the sign decides which of the two roundings is done
  rcases Int.lt_trichotomy z 0 with h | rfl | h
  · have hnegative : z * 2 ^ j < 0 := Int.mul_neg_of_neg_of_pos h htwo
    have hmantissa : (-(z * 2 ^ j)).toNat = (-z).toNat * 2 ^ j := by
      rw [← Int.neg_mul, ← Int.toNat_of_nonneg (a := -z) (by omega), hcast]
      simp only [Int.toNat_natCast]
    have hwhole := hround .negative (-z).toNat (by omega) (by omega)
    have hz : Sign.negative.apply (-z).toNat = z := by
      show -(((-z).toNat : Nat) : Int) = z
      omega
    rw [Int.compare_eq_lt.mpr hnegative, hmantissa]
    rwa [hz] at hwhole
  · rw [Int.zero_mul]
    exact .zero _
  · have hpositive : 0 < z * 2 ^ j := Int.mul_pos h htwo
    have hmantissa : (z * 2 ^ j).toNat = z.toNat * 2 ^ j := by
      rw [← Int.toNat_of_nonneg (a := z) (by omega), hcast]
      simp only [Int.toNat_natCast]
    have hwhole := hround .positive z.toNat (by omega) (by omega)
    have hz : Sign.positive.apply z.toNat = z := by
      show ((z.toNat : Nat) : Int) = z
      omega
    rw [Int.compare_eq_gt.mpr hpositive, hmantissa]
    rwa [hz] at hwhole

/-! ### Sums -/

/-- The mantissa of a whole number with the exponent of one that is not longer. -/
theorem decreaseExponent_eq {m k : Nat} (hm : m < 2 ^ 53) (hk : k ≤ m.log2) :
    (decreaseExponent (wholeMantissa m) ((m.log2 : Int) - 52) (k - 52)).1 = m * 2 ^ (52 - k) := by
  have hlog : m.log2 ≤ 52 := log2_le_of_lt hm
  have hplaces : ((m.log2 : Int) - 52 - (k - 52)).toNat = m.log2 - k := by omega
  simp only [decreaseExponent, hplaces, wholeMantissa, Nat.shiftLeft_eq, Nat.mul_assoc,
    ← Nat.pow_add]
  congr 2
  omega

theorem apply_mul (s : Sign) (m j : Nat) : s.apply ((m * 2 ^ j : Nat) : Int) = s.apply m * 2 ^ j := by
  cases s with
  | positive =>
    show ((m * 2 ^ j : Nat) : Int) = m * 2 ^ j
    rw [Int.natCast_mul, Int.natCast_pow]
    rfl
  | negative =>
    show -((m * 2 ^ j : Nat) : Int) = -(m : Int) * 2 ^ j
    rw [Int.natCast_mul, Int.natCast_pow, Int.neg_mul]
    rfl

/-- **The sum of whole numbers is exact** if it is small enough. -/
theorem add (h : Whole u z) (h' : Whole v z') (hlow : -2 ^ 53 < z + z') (hhigh : z + z' < 2 ^ 53) :
    Whole (u.add .binary64 v) (z + z') := by
  cases h with
  | zero s =>
    rw [Int.zero_add]
    cases h' with
    | zero s' => cases s <;> cases s' <;> exact .zero _
    | finite s' hpos' hm' => exact .finite s' hpos' hm'
  | @finite s m hpos hm =>
    cases h' with
    | zero s' =>
      rw [Int.add_zero]
      exact .finite s hpos hm
    | @finite s' m' hpos' hm' =>
      -- both mantissas get the exponent of the shorter number
      obtain ⟨k, hk⟩ : ∃ k, k = min m.log2 m'.log2 := ⟨_, rfl⟩
      have hlog := log2_le_of_lt hm
      have hexponent : min ((m.log2 : Int) - 52) (m'.log2 - 52) = k - 52 := by omega
      have hplaces : ((k : Int) - 52) = -((52 - k : Nat) : Int) := by omega
      show Whole (UnpackedFloat.normalize .binary64
        (s.apply (decreaseExponent (wholeMantissa m) _ (min _ _)).1 +
          s'.apply (decreaseExponent (wholeMantissa m') _ (min _ _)).1) (min _ _) .positive) _
      rw [hexponent, decreaseExponent_eq hm (by omega), decreaseExponent_eq hm' (by omega),
        apply_mul, apply_mul, ← Int.add_mul, hplaces]
      exact .normalize hlow hhigh (by omega) _

/-! ### Bits -/

/-- The sign is the first of the bits. -/
theorem sign_packComponents (s : Sign) (e : BitVec 11) (m : BitVec 52) :
    Sign.ofBitVec (unpackSign (packComponents .binary64 s e m)) = s := by
  simp only [unpackSign, packComponents, BitVec.extractLsb]
  rw [BitVec.extractLsb'_append_eq_of_le (by omega), BitVec.extractLsb'_append_eq_of_le (by omega)]
  cases s <;> rfl

/-- A whole number is what its bits say. -/
theorem unpack_pack (h : Whole u z) : (Float.Model.pack u).unpack = u := by
  cases h with
  | zero s => cases s <;> rfl
  | @finite s m hpos hm =>
    have hlog : m.log2 ≤ 52 := log2_le_of_lt hm
    obtain ⟨hlow, hhigh⟩ := wholeMantissa_bounds hpos hm
    have hbias : ((Format.binary64.exponentBias : Nat) : Int) = 1023 := by decide
    have hbiased : ((m.log2 : Int) - 52 + (Format.binary64.exponentBias : Nat) + (52 : Nat)).toNat =
        m.log2 + 1023 := by
      rw [hbias]
      omega
    have hexponent : (BitVec.ofNat 11 (m.log2 + 1023)).toNat = m.log2 + 1023 := by
      rw [BitVec.toNat_ofNat]
      exact Nat.mod_eq_of_lt (by omega)
    have hmantissa : (1#1 ++ BitVec.ofNat 52 (wholeMantissa m)).toNat = wholeMantissa m := by
      rw [BitVec.toNat_append, ← Nat.shiftLeft_add_eq_or_of_lt (BitVec.isLt _), BitVec.toNat_ofNat,
        Nat.shiftLeft_eq]
      show 1 * 2 ^ 52 + wholeMantissa m % 2 ^ 52 = wholeMantissa m
      omega
    have hne : ∀ b : BitVec 11, b.toNat ≠ m.log2 + 1023 → BitVec.ofNat 11 (m.log2 + 1023) ≠ b :=
      fun b hb heq => hb (heq ▸ hexponent)
    show UnpackedFloat.unpack .binary64 (UnpackedFloat.pack .binary64 _) = _
    rw [UnpackedFloat.pack]
    simp only [log2_wholeMantissa hpos hm, hbiased]
    rw [if_neg (by omega), if_pos (by decide), UnpackedFloat.unpack]
    simp only [unpackMantissa_packComponents, unpackExponent_packComponents, sign_packComponents]
    rw [if_neg (hne _ (by simp; omega)), if_neg (hne _ (by simp))]
    simp only [hmantissa, hexponent, hbias, UnpackedFloat.finite.injEq, true_and]
    omega

end Whole

/-- An integer becomes the whole number that it is. -/
theorem whole_ofInt {z : Int} (hlow : -2 ^ 53 < z) (hhigh : z < 2 ^ 53) :
    Whole (UnpackedFloat.ofInt .binary64 z) z := by
  have hwhole := Whole.normalize hlow hhigh (Nat.zero_le 52) .positive
  rwa [Int.pow_zero, Int.mul_one] at hwhole

/-! ### Comparisons -/

section

variable {x y : Float}

theorem beq_iff_compare :
    (x == y) = true ↔ x.toModel.unpack.compare y.toModel.unpack = some .eq := by
  show (x.toModel.unpack.compare y.toModel.unpack == some .eq) = true ↔ _
  exact beq_iff_eq

theorem lt_iff_compare : x < y ↔ x.toModel.unpack.compare y.toModel.unpack = some .lt := by
  have hmodel : x < y ↔ x.toModel < y.toModel := decide_eq_true_iff
  have hunpacked : x.toModel < y.toModel ↔
      (x.toModel.unpack.compare y.toModel.unpack == some .lt) = true := Iff.rfl
  rw [hmodel, hunpacked, beq_iff_eq]

theorem le_iff_compare :
    x ≤ y ↔ (x.toModel.unpack.compare y.toModel.unpack).any (·.isLE) = true := by
  have hmodel : x ≤ y ↔ x.toModel ≤ y.toModel := decide_eq_true_iff
  exact hmodel

/-- What is unequal to zero in an ordered comparison is a number, and not zero. -/
theorem CompareOp.of_ne_zero (h : CompareOp.ne.eval x 0.0 = true) :
    x.isNaN = false ∧ (x == 0.0) = false := by
  have hzero : (0.0 : Float).toModel.unpack = .zero .positive := rfl
  have hordered : x < 0.0 ∨ 0.0 < x := by simpa [CompareOp.eval] using h
  have hnan : x.isNaN = x.toModel.unpack.isNaN := rfl
  rw [lt_iff_compare, lt_iff_compare, hzero] at hordered
  rw [hnan, ← Bool.not_eq_true (x == 0.0), beq_iff_compare, hzero]
  generalize x.toModel.unpack = u at hordered
  cases u with
  | notANumber => rcases hordered with h | h <;> cases h
  | zero s => rcases hordered with h | h <;> cases h
  | infinity s => cases s <;> exact ⟨rfl, nofun⟩
  | finite s m e hpos => cases s <;> exact ⟨rfl, nofun⟩

end

/-! ### Natural numbers -/

/-- A double is exactly a natural number, of those below 2 to the power of 53. -/
def IsNatural (n : Nat) (x : Float) : Prop :=
  Whole x.toModel.unpack n

namespace IsNatural

variable {m n : Nat} {x y : Float}

theorem le_iff (hm : IsNatural m x) (hn : IsNatural n y) : x ≤ y ↔ m ≤ n := by
  rw [le_iff_compare, hm.compare_eq hn, ← Int.ofNat_le]
  exact Int.isLE_compare

theorem beq_iff (hm : IsNatural m x) (hn : IsNatural n y) : (x == y) = true ↔ m = n := by
  rw [beq_iff_compare, hm.compare_eq hn, Option.some.injEq, Int.compare_eq_eq]
  exact Int.natCast_inj

theorem one : IsNatural 1 1.0 :=
  .finite .positive (m := 1) (by decide) (by decide)

/-- **Counting in doubles** is counting. -/
theorem succ (hn : IsNatural n x) (hlt : n + 1 < 2 ^ 53) : IsNatural (n + 1) (x + 1.0) := by
  have hsum := hn.add one (by omega) (by omega)
  have hunpack : (x + 1.0).toModel.unpack =
      x.toModel.unpack.add .binary64 (1.0 : Float).toModel.unpack := hsum.unpack_pack
  rw [IsNatural, hunpack]
  exact hsum

end IsNatural

namespace Integer32

/-- A double is exactly a 32-bit integer. -/
def Is (n : Int32) (x : Float) : Prop :=
  (toFloat n == x) = true

variable {m n : Int32} {x y : Float}

theorem whole_toFloat (n : Int32) : Whole (toFloat n).toModel.unpack n.toInt := by
  have hlow := n.le_toInt
  have hhigh := n.toInt_lt
  have hwhole : Whole (UnpackedFloat.ofInt .binary64 n.toInt) n.toInt :=
    whole_ofInt (by omega) (by omega)
  have hunpack : (toFloat n).toModel.unpack = UnpackedFloat.ofInt .binary64 n.toInt :=
    hwhole.unpack_pack
  rwa [hunpack]

theorem is_iff : Is n x ↔ Whole x.toModel.unpack n.toInt := by
  rw [Is, beq_iff_compare]
  refine ⟨(whole_toFloat n).of_compare_eq, fun h => ?_⟩
  rw [(whole_toFloat n).compare_eq h, Int.compare_eq_eq.mpr rfl]

theorem is_toFloat (n : Int32) : Is n (toFloat n) :=
  is_iff.mpr (whole_toFloat n)

theorem is_zero : Is 0 0.0 :=
  is_toFloat 0

/-- An integer is truncated to itself. -/
theorem Is.ofFloat_eq (h : Is n x) : ofFloat x = n := by
  show Int32.ofIntClamp (x.toModel.unpack.toInt _ _) = n
  rw [(is_iff.mp h).toInt_eq, Int32.ofIntClamp_toInt]

theorem Is.le_iff (hm : Is m x) (hn : Is n y) : x ≤ y ↔ m ≤ n := by
  rw [le_iff_compare, (is_iff.mp hm).compare_eq (is_iff.mp hn), Int32.le_iff_toInt_le]
  exact Int.isLE_compare

theorem Is.lt_iff (hm : Is m x) (hn : Is n y) : x < y ↔ m < n := by
  rw [lt_iff_compare, (is_iff.mp hm).compare_eq (is_iff.mp hn), Option.some.injEq,
    Int.compare_eq_lt, Int32.lt_iff_toInt_lt]

end Integer32

/-- A 32-bit integer is truncated to itself. -/
theorem Integer64.ofFloat_eq {n : Int32} {x : Float} (h : Integer32.Is n x) :
    Integer64.ofFloat x = n.toInt64 := by
  show Int64.ofIntClamp (x.toModel.unpack.toInt _ _) = n.toInt64
  rw [(Integer32.is_iff.mp h).toInt_eq, ← Int32.toInt_toInt64, Int64.ofIntClamp_toInt]

/-- **The doubles that survive the round trip are the 32-bit integers.** -/
theorem isInt32_iff {x : Float} : isInt32 x = true ↔ ∃ n, Integer32.Is n x := by
  refine ⟨fun h => ⟨_, h⟩, fun ⟨n, h⟩ => ?_⟩
  rw [isInt32, h.ofFloat_eq]
  exact h

end LogoEngine
