import LogoEngine.Decimal.Numeral
import LogoEngine.Proofs.Decimal.Rounding

/-!
# Decimals as doubles

A decimal with a power of ten becomes a double by one product or one quotient, which is rounded once:
of two doubles if both are exact, of exact numbers otherwise. Either way it becomes the double in whose
room it is. Decimals so large or so small that their powers of ten are not computed are in no room.

Main statement: `Numeral.unpack_toFloat_iff`.
-/

namespace LogoEngine

open Float.Model Float.Model.UnpackedFloat

section

variable {m₁ m₂ : Nat} {e₁ e₂ : Int}

/-! ### Products and quotients -/

/-- A product is rounded, if it has enough bits. -/
theorem rounds_mul (h₁ : 0 < m₁) (h₂ : 0 < m₂) (hbits : 2 ^ 52 ≤ m₁ * m₂) (s₁ s₂ : Sign) :
    Rounds (m₁ * 2 ^ e₁ * (m₂ * 2 ^ e₂)) (s₁ * s₂)
      (UnpackedFloat.mul .binary64 (.finite s₁ m₁ e₁ h₁) (.finite s₂ m₂ e₂ h₂)) := by
  have hproduct : (m₁ * 2 ^ e₁ * (m₂ * 2 ^ e₂) : ℚ) = (m₁ * m₂ : Nat) * 2 ^ (e₁ + e₂) := by
    rw [zpow_add₀ two_ne_zero]
    push_cast
    ring
  rw [hproduct, UnpackedFloat.mul]
  refine rounds_roundWithAccuracy (.exact ?_) (.inr ?_) _
  · exact mul_div_cancel_right₀ _ (zpow_ne_zero _ two_ne_zero)
  · refine (two_pow_le_div_iff 52 (e₁ + e₂)).mp ?_
    rw [mul_div_cancel_right₀ _ (zpow_ne_zero _ two_ne_zero)]
    exact_mod_cast hbits

/-- A power of two that a quotient reaches. -/
theorem two_zpow_le_quotient (h₁ : 0 < m₁) (h₂ : 0 < m₂) :
    (2 : ℚ) ^ ((m₁.log2 + e₁) - (m₂.log2 + 1 + e₂)) ≤ m₁ * 2 ^ e₁ / (m₂ * 2 ^ e₂) := by
  have hnum : (2 : ℚ) ^ (m₁.log2 + e₁) ≤ m₁ * 2 ^ e₁ := by
    rw [zpow_add₀ two_ne_zero, zpow_natCast]
    gcongr
    exact_mod_cast Nat.log2_self_le h₁.ne'
  have hden : (m₂ * 2 ^ e₂ : ℚ) ≤ 2 ^ (m₂.log2 + 1 + e₂) := by
    rw [zpow_add₀ two_ne_zero, ← Nat.cast_succ, zpow_natCast]
    gcongr
    exact_mod_cast Nat.lt_log2_self.le
  have hpos : (0 : ℚ) < m₂ * 2 ^ e₂ := mul_pos (by exact_mod_cast h₂) (zpow_pos two_pos e₂)
  rw [zpow_sub₀ two_ne_zero]
  gcongr

/-- A quotient is rounded. -/
theorem rounds_div (h₁ : 0 < m₁) (h₂ : 0 < m₂) (s₁ s₂ : Sign) :
    Rounds (m₁ * 2 ^ e₁ / (m₂ * 2 ^ e₂)) (s₁ / s₂)
      (UnpackedFloat.div .binary64 (.finite s₁ m₁ e₁ h₁) (.finite s₂ m₂ e₂ h₂)) := by
  have htarget : Format.binary64.targetExponent (totalExponent m₁ e₁ - totalExponent m₂ e₂) =
      max ((m₁.log2 + e₁) - (m₂.log2 + e₂) - 53) (-1074) := by
    have hmin : Format.binary64.minExponent = -1074 := by decide
    rw [Format.targetExponent, totalExponent, totalExponent, hmin, mantissaBits_binary64]
    omega
  rw [UnpackedFloat.div]
  simp only [divCore, htarget]
  -- the dividend is shifted so that the quotient has enough bits
  generalize hE : min (e₁ - e₂) (max ((m₁.log2 + e₁ : Int) - (m₂.log2 + e₂) - 53) (-1074)) = E
  obtain ⟨k, hk⟩ : ∃ k, (e₁ - e₂ - E).toNat = k := ⟨_, rfl⟩
  have hshifted : (m₁ * 2 ^ e₁ / (m₂ * 2 ^ e₂) / 2 ^ E : ℚ) = (m₁ * 2 ^ k : Nat) / m₂ := by
    have hexponent : e₁ = k + e₂ + E := by omega
    have htwo : ∀ n : Int, (2 : ℚ) ^ n ≠ 0 := fun n => zpow_ne_zero n two_ne_zero
    have hm₂ : (m₂ : ℚ) ≠ 0 := by exact_mod_cast h₂.ne'
    rw [hexponent, zpow_add₀ two_ne_zero, zpow_add₀ two_ne_zero, zpow_natCast]
    push_cast
    field_simp
  rw [hk, Nat.shiftLeft_eq]
  refine rounds_roundWithAccuracy (hshifted ▸ approximates_div _ h₂) ?_ _
  refine (le_or_gt E (-1074)).imp_right fun hlarge => le_trans ?_ (two_zpow_le_quotient h₁ h₂)
  exact zpow_le_zpow_right₀ one_le_two (by omega)

/-! ### Exact decimals -/

variable {d : Nat} {k : Int}

/-- A decimal is a product or a quotient, if its power of ten is computed at all. -/
theorem rounds_ofScientific (hd : d ≠ 0) (hhigh : k ≤ 2 ^ 11) (hlow : -(2 ^ 11 + d.log2 : Int) ≤ k) :
    Rounds (d * 10 ^ k) .positive (UnpackedFloat.ofScientific .binary64 d k) := by
  rw [UnpackedFloat.ofScientific, dif_neg hd, if_neg (not_lt.mpr hhigh), if_neg (not_lt.mpr hlow)]
  split
  · next hk =>
    obtain ⟨n, rfl⟩ := Int.eq_ofNat_of_zero_le hk
    have hbits : 2 ^ 52 ≤ d <<< Format.binary64.mantissaBits * 10 ^ Int.toNat n := by
      rw [mantissaBits_binary64, Nat.shiftLeft_eq]
      have hshift : 1 * 2 ^ 53 ≤ d * 2 ^ 53 := Nat.mul_le_mul_right _ (Nat.pos_of_ne_zero hd)
      have hpower : 0 < 10 ^ Int.toNat n := Nat.pow_pos (by decide)
      calc 2 ^ 52 ≤ d * 2 ^ 53 := by omega
        _ ≤ d * 2 ^ 53 * 10 ^ Int.toNat n := Nat.le_mul_of_pos_right _ hpower
    have hvalue : (d * 10 ^ (n : Int) : ℚ) = (d <<< Format.binary64.mantissaBits : Nat) *
        2 ^ (-(Format.binary64.mantissaBits : Int)) * ((10 ^ Int.toNat n : Nat) * 2 ^ (0 : Int)) := by
      rw [mantissaBits_binary64, Nat.shiftLeft_eq, Int.toNat_natCast, zpow_natCast]
      push_cast
      ring
    rw [hvalue]
    exact rounds_mul _ _ hbits .positive .positive
  · next hk =>
    obtain ⟨n, rfl⟩ : ∃ n : Nat, k = -n := ⟨(-k).toNat, by omega⟩
    have hvalue : (d * 10 ^ (-n : Int) : ℚ) =
        d * 2 ^ (0 : Int) / ((10 ^ Int.toNat (- -n) : Nat) * 2 ^ (0 : Int)) := by
      rw [neg_neg, Int.toNat_natCast, zpow_neg, zpow_natCast, zpow_zero, mul_one, mul_one]
      push_cast
      rw [div_eq_mul_inv]
    rw [hvalue]
    exact rounds_div _ _ .positive .positive

/-! ### Decimals of exact doubles -/

/-- The fraction of a mantissa and an exponent. -/
theorem ratio_eq (m : Nat) (e : Int) :
    ((Decimal.ratio m e).1 / (Decimal.ratio m e).2 : ℚ) = m * 2 ^ e := by
  rw [Decimal.ratio]
  split
  · next he =>
    obtain ⟨n, rfl⟩ := Int.eq_ofNat_of_zero_le he
    simp
  · next he =>
    obtain ⟨n, rfl⟩ : ∃ n : Nat, e = -n := ⟨(-e).toNat, by omega⟩
    simp [div_eq_mul_inv]

/-- A double is a power of ten. -/
def IsPowerOfTen (n : Nat) : UnpackedFloat → Prop
  | .finite .positive m e _ => (Decimal.ratio m e).1 = 10 ^ n * (Decimal.ratio m e).2
  | _ => False

instance (n : Nat) (u : UnpackedFloat) : Decidable (IsPowerOfTen n u) :=
  match u with
  | .finite .positive m e _ =>
    inferInstanceAs (Decidable ((Decimal.ratio m e).1 = 10 ^ n * (Decimal.ratio m e).2))
  | .finite .negative _ _ _ | .zero _ | .infinity _ | .notANumber => isFalse id

theorem isPowerOfTen : ∀ (n : Nat) (hn : n < Float.exactlyRepresentablePowersOfTen.size),
    IsPowerOfTen n Float.exactlyRepresentablePowersOfTen[n].toModel.unpack := by
  decide +kernel

theorem IsPowerOfTen.exists_finite {n : Nat} {u : UnpackedFloat} (hu : IsPowerOfTen n u) :
    ∃ m e hpos, u = .finite .positive m e hpos ∧ (m * 2 ^ e : ℚ) = 10 ^ n := by
  cases u with
  | notANumber | zero s | infinity s => exact hu.elim
  | finite s m e hpos =>
    cases s with
    | negative => exact hu.elim
    | positive =>
      refine ⟨m, e, hpos, rfl, ?_⟩
      have hden : ((Decimal.ratio m e).2 : ℚ) ≠ 0 := by
        exact_mod_cast (Decimal.ratio_pos hpos e).2.ne'
      have hnum : ((Decimal.ratio m e).1 : ℚ) = 10 ^ n * (Decimal.ratio m e).2 := by exact_mod_cast hu
      rw [← ratio_eq, hnum, mul_div_cancel_right₀ _ hden]

theorem isNatural_toUInt64 (hd : d < 2 ^ 53) : IsNatural d d.toUInt64.toFloat := by
  have hwhole : Whole (UnpackedFloat.ofInt .binary64 d.toUInt64.toNat) d.toUInt64.toNat := by
    have hsize : d.toUInt64.toNat = d := Nat.mod_eq_of_lt (by omega)
    exact whole_ofInt (by omega) (by omega)
  have hsize : d.toUInt64.toNat = d := Nat.mod_eq_of_lt (by omega)
  have hunpack : d.toUInt64.toFloat.toModel.unpack =
      UnpackedFloat.ofInt .binary64 d.toUInt64.toNat := hwhole.unpack_pack
  rw [IsNatural, hunpack]
  rwa [hsize] at hwhole ⊢

theorem IsNatural.exists_finite {x : Float} (hx : IsNatural d x) (hd : d ≠ 0) :
    ∃ m e hpos, x.toModel.unpack = .finite .positive m e hpos ∧ (m * 2 ^ e : ℚ) = d ∧ 2 ^ 52 ≤ m := by
  rw [IsNatural] at hx
  generalize x.toModel.unpack = u at hx
  generalize hz : (d : Int) = z at hx
  cases hx with
  | zero s => omega
  | @finite s k hpos hlt =>
    cases s with
    | negative =>
      have hz : (d : Int) = -k := hz
      omega
    | positive =>
      have hz : (d : Int) = k := hz
      obtain rfl : d = k := by omega
      refine ⟨_, _, _, rfl, ?_, (wholeMantissa_bounds hpos hlt).1⟩
      have hlog : d.log2 ≤ 52 := log2_le_of_lt hlt
      have hexponent : (d.log2 - 52 : Int) = -(52 - d.log2 : Nat) := by omega
      rw [wholeMantissa, hexponent, zpow_neg, zpow_natCast]
      push_cast
      exact mul_inv_cancel_right₀ (pow_ne_zero _ two_ne_zero) _

/-- **A decimal becomes a double** by being rounded. -/
theorem exists_rounds_ofScientific {n : Nat} {negative : Bool}
    (hk : k = if negative then -(n : Int) else n) (hd : d ≠ 0) (hhigh : k ≤ 2 ^ 11)
    (hlow : -(2 ^ 11 + d.log2 : Int) ≤ k) :
    ∃ u, Rounds (d * 10 ^ k) .positive u ∧
      (Float.ofScientific d negative n).toModel = Float.Model.pack u := by
  by_cases hfast : d < 2 ^ 53 ∧ n ≤ 22
  · -- digits and power are exact, and so is what is rounded
    obtain ⟨m₁, e₁, h₁, hu₁, hv₁, hfull⟩ := (isNatural_toUInt64 hfast.1).exists_finite hd
    have hn : n < Float.exactlyRepresentablePowersOfTen.size := Nat.lt_succ_of_le hfast.2
    obtain ⟨m₂, e₂, h₂, hu₂, hv₂⟩ := (isPowerOfTen n hn).exists_finite
    rw [Float.ofScientific, dif_pos hfast, ← hv₁]
    cases negative with
    | true =>
      have hdiv := @rounds_div m₁ m₂ e₁ e₂ h₁ h₂ .positive .positive
      rw [← hu₁, ← hu₂, hv₂] at hdiv
      rw [hk, if_pos rfl, zpow_neg, zpow_natCast, ← div_eq_mul_inv]
      exact ⟨_, hdiv, rfl⟩
    | false =>
      have hmul := @rounds_mul m₁ m₂ e₁ e₂ h₁ h₂ (by nlinarith) .positive .positive
      rw [← hu₁, ← hu₂, hv₂] at hmul
      rw [hk, if_neg (by decide), zpow_natCast]
      exact ⟨_, hmul, rfl⟩
  · refine ⟨_, rounds_ofScientific hd hhigh hlow, ?_⟩
    rw [Float.ofScientific, dif_neg hfast]
    cases negative <;> simp [hk, Int.negOfNat_eq, Float.Model.ofScientific]

end

/-! ### Signs -/

/-- The sign of a number that is negative or not. -/
def signOf : Bool → Sign
  | true => .negative
  | false => .positive

@[simp]
theorem signOf_isMinus (s : Sign) : signOf (Decimal.isMinus s) = s := by
  cases s <;> rfl

theorem unpack_neg (x : Float) : (-x).toModel.unpack = x.toModel.unpack.neg := by
  have hneg : IsDouble x.toModel.unpack.neg := by
    have hdouble := isDouble_unpack x.toModel
    generalize x.toModel.unpack = u at hdouble
    cases hdouble with
    | notANumber => exact .notANumber
    | infinity s => exact .infinity _
    | zero s => exact .zero _
    | finite s h => exact .finite _ h
  exact hneg.unpack_pack

theorem signOf_mul_eq_iff {s t : Sign} {negative : Bool} :
    signOf negative * s = t ↔ s = signOf negative * t := by
  cases negative <;> cases s <;> cases t <;>
    first | exact ⟨fun _ => rfl, fun _ => rfl⟩ | exact ⟨nofun, nofun⟩

theorem neg_eq_iff {s t : Sign} : -s = t ↔ s = signOf true * t := by
  cases s <;> cases t <;> first | exact ⟨fun _ => rfl, fun _ => rfl⟩ | exact ⟨nofun, nofun⟩

/-- A sign put before a double is multiplied to its own. -/
theorem unpack_signed_iff {x : Float} {s : Sign} {m : Nat} {e : Int} {hpos : 0 < m}
    (negative : Bool) : (Decimal.signed negative x).toModel.unpack = .finite s m e hpos ↔
      x.toModel.unpack = .finite (signOf negative * s) m e hpos := by
  cases negative with
  | true =>
    show (-x).toModel.unpack = _ ↔ _
    rw [unpack_neg]
    generalize x.toModel.unpack = u
    cases u with
    | notANumber | infinity t | zero t => exact ⟨nofun, nofun⟩
    | finite t m' e' => simp only [UnpackedFloat.neg, UnpackedFloat.finite.injEq, neg_eq_iff]
  | false => cases s <;> exact Iff.rfl

namespace Decimal

/-! ### Numerals -/

/-- Cubed, a power of ten is one of a thousand, and so below one of 1024. -/
theorem ten_pow_le_two_pow {k l : Nat} (h : 10 * l ≤ 3 * k) : 10 ^ l ≤ 2 ^ k := by
  refine (Nat.pow_le_pow_iff_left (n := 3) (by decide)).mp ?_
  calc (10 ^ l) ^ 3 = (10 ^ 3) ^ l := Nat.pow_right_comm ..
    _ ≤ (2 ^ 10) ^ l := Nat.pow_le_pow_left (by decide) l
    _ = 2 ^ (10 * l) := (Nat.pow_mul ..).symm
    _ ≤ 2 ^ (k * 3) := Nat.pow_le_pow_right (by decide) (by omega)
    _ = (2 ^ k) ^ 3 := Nat.pow_mul ..

/-- Thirteen bits are less than four digits. -/
theorem two_pow_le_ten_pow {k l : Nat} (h : 4 * k ≤ 13 * l) : 2 ^ k ≤ 10 ^ l := by
  refine (Nat.pow_le_pow_iff_left (n := 4) (by decide)).mp ?_
  calc (2 ^ k) ^ 4 = 2 ^ (k * 4) := (Nat.pow_mul ..).symm
    _ ≤ 2 ^ (13 * l) := Nat.pow_le_pow_right (by decide) (by omega)
    _ = (2 ^ 13) ^ l := Nat.pow_mul ..
    _ ≤ (10 ^ 4) ^ l := Nat.pow_le_pow_left (by decide) l
    _ = (10 ^ l) ^ 4 := Nat.pow_right_comm ..

/-- The number that a numeral denotes, its sign aside. -/
def Numeral.magnitude (n : Numeral) : ℚ :=
  n.digits * 10 ^ n.scale

namespace Numeral

variable {n : Numeral} {m : Nat} {e : Int}

theorem ten_zpow_leastExponent_le (hd : n.digits ≠ 0) :
    (10 : ℚ) ^ n.leastExponent ≤ n.magnitude := by
  have hle : 10 ^ (n.digits.log2 * 3 / 10) ≤ n.digits :=
    (ten_pow_le_two_pow (by omega)).trans (Nat.log2_self_le hd)
  rw [leastExponent, magnitude, zpow_add₀ (by norm_num), zpow_natCast]
  gcongr
  exact_mod_cast hle

theorem magnitude_lt_ten_zpow_limitExponent (n : Numeral) :
    n.magnitude < (10 : ℚ) ^ n.limitExponent := by
  have hlt : n.digits < 10 ^ ((n.digits.log2 + 1) * 4 / 13 + 1) :=
    Nat.lt_log2_self.trans_le (two_pow_le_ten_pow (by omega))
  rw [limitExponent, magnitude, zpow_add₀ (by norm_num), zpow_natCast]
  gcongr
  exact_mod_cast hlt

end Numeral

theorem two_zpow_le_ten_zpow {k l : Nat} (h : 4 * k ≤ 13 * l) :
    (2 : ℚ) ^ (k : Int) ≤ 10 ^ (l : Int) := by
  rw [zpow_natCast, zpow_natCast]
  exact_mod_cast two_pow_le_ten_pow h

/-- What is in the room of a double is far from the limits of the powers of ten. -/
theorem ten_zpow_bounds {m : Nat} {e : Int} {q : ℚ} (h : IsMagnitude m e) (hroom : InRoom m e q) :
    (10 : ℚ) ^ (-scaleLimit) ≤ q ∧ q < 10 ^ scaleLimit := by
  have hleast := h.least
  have hmost := h.most
  constructor
  · have hm : (1 : ℚ) ≤ m := by exact_mod_cast h.pos
    have hinverse : ((10 : ℚ) ^ scaleLimit)⁻¹ ≤ (2 ^ (1075 : Int))⁻¹ :=
      inv_anti₀ (zpow_pos two_pos _) (two_zpow_le_ten_zpow (k := 1075) (l := 400) (by decide))
    calc (10 : ℚ) ^ (-scaleLimit) = (10 ^ scaleLimit)⁻¹ := zpow_neg ..
      _ ≤ (2 ^ (1075 : Int))⁻¹ := hinverse
      _ = 2 ^ (-1075 : Int) := (zpow_neg ..).symm
      _ ≤ 2 ^ (-1 + e) := zpow_le_zpow_right₀ one_le_two (by omega)
      _ ≤ q := by
        rw [zpow_add₀ two_ne_zero, ← le_div_iff₀ (zpow_pos two_pos e), zpow_neg_one]
        linarith [hroom.isNearest.low]
  · calc q < 2 ^ (53 + e) := (div_lt_two_pow_iff 53 e).mp (by linarith [hroom.div_lt h.lt])
      _ ≤ 2 ^ (1024 : Int) := zpow_le_zpow_right₀ one_le_two (by omega)
      _ ≤ 10 ^ scaleLimit := two_zpow_le_ten_zpow (k := 1024) (l := 400) (by decide)

namespace Numeral

variable {n : Numeral} {m : Nat} {e : Int}

theorem toFloat_of_digits_eq_zero (hd : n.digits = 0) :
    n.toFloat.toModel.unpack = .zero (signOf n.negative) := by
  simp only [toFloat, hd, beq_self_eq_true, if_true]
  cases n.negative <;> rfl

theorem toFloat_of_le_leastExponent (hd : n.digits ≠ 0) (hleast : scaleLimit ≤ n.leastExponent) :
    n.toFloat.toModel.unpack = .infinity (signOf n.negative) := by
  simp only [toFloat, beq_iff_eq, if_neg hd, if_pos hleast]
  cases n.negative <;> rfl

theorem toFloat_of_limitExponent_le (hd : n.digits ≠ 0) (hleast : n.leastExponent < scaleLimit)
    (hlimit : n.limitExponent ≤ -scaleLimit) :
    n.toFloat.toModel.unpack = .zero (signOf n.negative) := by
  simp only [toFloat, beq_iff_eq, if_neg hd, if_neg (not_le.mpr hleast), if_pos hlimit]
  cases n.negative <;> rfl

/-- Between the limits a numeral is rounded. -/
theorem exists_rounds (hd : n.digits ≠ 0) (hleast : n.leastExponent < scaleLimit)
    (hlimit : -scaleLimit < n.limitExponent) :
    ∃ x u, n.toFloat = signed n.negative x ∧ Rounds n.magnitude .positive u ∧
      x.toModel = Float.Model.pack u := by
  have hscale : n.scale ≤ 2 ^ 11 ∧ -(2 ^ 11 + n.digits.log2 : Int) ≤ n.scale := by
    simp only [leastExponent, limitExponent, scaleLimit] at hleast hlimit
    omega
  obtain ⟨x, hx, u, hu⟩ : ∃ x, n.toFloat = signed n.negative x ∧
      ∃ u, Rounds n.magnitude .positive u ∧ x.toModel = Float.Model.pack u := by
    simp only [toFloat, beq_iff_eq, if_neg hd, if_neg (not_le.mpr hleast), if_neg (not_le.mpr hlimit)]
    refine ⟨_, rfl, ?_⟩
    split
    · next hpos => exact exists_rounds_ofScientific (by simp [hpos]) hd hscale.1 hscale.2
    · next hneg =>
      refine exists_rounds_ofScientific ?_ hd hscale.1 hscale.2
      rw [if_pos rfl]
      omega
  exact ⟨x, u, hx, hu⟩

theorem unpack_toFloat_iff_of_lt (h : IsMagnitude m e) {s : Sign} (hd : n.digits ≠ 0)
    (hleast : n.leastExponent < scaleLimit) (hlimit : -scaleLimit < n.limitExponent) :
    n.toFloat.toModel.unpack = .finite s m e h.pos ↔
      s = signOf n.negative ∧ InRoom m e n.magnitude := by
  obtain ⟨x, u, hx, hu, hpack⟩ := exists_rounds hd hleast hlimit
  rw [hx, unpack_signed_iff, hpack, hu.unpack_pack_iff h, signOf_mul_eq_iff]
  cases n.negative <;> exact Iff.rfl

/-- **A numeral is read as the double in whose room it is**, with the sign of the numeral. -/
theorem unpack_toFloat_iff (h : IsMagnitude m e) {s : Sign} :
    n.toFloat.toModel.unpack = .finite s m e h.pos ↔
      s = signOf n.negative ∧ InRoom m e n.magnitude := by
  have hten : (1 : ℚ) < 10 := by norm_num
  by_cases hd : n.digits = 0
  · rw [toFloat_of_digits_eq_zero hd]
    refine ⟨nofun, fun ⟨_, hroom⟩ => ?_⟩
    have hlow := (ten_zpow_bounds h hroom).1
    rw [magnitude, hd, Nat.cast_zero, zero_mul] at hlow
    exact absurd hlow (not_le.mpr (zpow_pos (by norm_num) _))
  rcases le_or_gt scaleLimit n.leastExponent with hleast | hleast
  · rw [toFloat_of_le_leastExponent hd hleast]
    refine ⟨nofun, fun ⟨_, hroom⟩ => absurd (ten_zpow_bounds h hroom).2 (not_lt.mpr ?_)⟩
    exact (zpow_le_zpow_right₀ hten.le hleast).trans (ten_zpow_leastExponent_le hd)
  rcases le_or_gt n.limitExponent (-scaleLimit) with hlimit | hlimit
  · rw [toFloat_of_limitExponent_le hd hleast hlimit]
    refine ⟨nofun, fun ⟨_, hroom⟩ => absurd (ten_zpow_bounds h hroom).1 (not_le.mpr ?_)⟩
    exact n.magnitude_lt_ten_zpow_limitExponent.trans_le (zpow_le_zpow_right₀ hten.le hlimit)
  exact unpack_toFloat_iff_of_lt h hd hleast hlimit

end Numeral

end Decimal

end LogoEngine
