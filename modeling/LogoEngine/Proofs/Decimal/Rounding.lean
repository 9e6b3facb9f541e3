import LogoEngine.Decimal.Shortest
import LogoEngine.Proofs.Decimal.Doubles

/-!
# Rounding to the nearest double

The arithmetic of doubles keeps a mantissa and two residual bits, which say how the exact result lies
between this mantissa and the next one (`Approximates`). Shifting to the right keeps this true, and so
a product or a quotient is rounded as if it was known exactly: it becomes the double in whose room it
is, which reaches half-way to its neighbours. No two doubles share a number of their rooms.

Main statements: `rounds_roundWithAccuracy`, `InRoom.unique` and `Rounds.unpack_pack_iff`.
-/

namespace LogoEngine

open Float.Model Float.Model.UnpackedFloat

/-! ### The nearest integer -/

/-- An integer is **nearest** to a number, and of two as near as each other it is the even one. -/
structure IsNearest (n : Nat) (y : ℚ) : Prop where
  low : (n : ℚ) - 1 / 2 ≤ y
  high : y ≤ n + 1 / 2
  strict : n % 2 = 1 → (n : ℚ) - 1 / 2 < y ∧ y < n + 1 / 2

namespace IsNearest

variable {n k : Nat} {y : ℚ}

theorem of_lt (hlow : (n : ℚ) - 1 / 2 < y) (hhigh : y < n + 1 / 2) : IsNearest n y :=
  ⟨hlow.le, hhigh.le, fun _ => ⟨hlow, hhigh⟩⟩

theorem le (h : IsNearest n y) (h' : IsNearest k y) : n ≤ k := by
  by_contra hlt
  have hlow := h.low
  have hhigh := h'.high
  have hle : (k : ℚ) + 1 ≤ n := by exact_mod_cast not_le.mp hlt
  -- the number is half-way between two neighbours, one of which is odd
  have hnext : n = k + 1 := by
    have : (n : ℚ) = k + 1 := by linarith
    exact_mod_cast this
  by_cases hodd : n % 2 = 1
  · linarith [(h.strict hodd).1]
  · linarith [(h'.strict (by omega)).2]

theorem unique (h : IsNearest n y) (h' : IsNearest k y) : n = k :=
  (h.le h').antisymm (h'.le h)

end IsNearest

/-! ### Residual bits -/

/-- A mantissa with residual bits says where a number lies. -/
inductive Approximates : ExtendedMantissa → ℚ → Prop
  | exact {m : Nat} {y : ℚ} (h : y = m) : Approximates ⟨m, false, false⟩ y
  | belowHalf {m : Nat} {y : ℚ} (hlow : m < y) (hhigh : y < m + 1 / 2) :
      Approximates ⟨m, false, true⟩ y
  | half {m : Nat} {y : ℚ} (h : y = m + 1 / 2) : Approximates ⟨m, true, false⟩ y
  | aboveHalf {m : Nat} {y : ℚ} (hlow : m + 1 / 2 < y) (hhigh : y < m + 1) :
      Approximates ⟨m, true, true⟩ y

namespace Approximates

variable {em : ExtendedMantissa} {y : ℚ}

theorem bounds (h : Approximates em y) : (em.mantissa : ℚ) ≤ y ∧ y < em.mantissa + 1 := by
  cases h <;> constructor <;> dsimp only <;> linarith

/-- Shifting to the right halves. -/
theorem shiftRightOne (h : Approximates em y) : Approximates em.shiftRightOne (y / 2) := by
  obtain ⟨k, hk⟩ := Nat.even_or_odd' em.mantissa
  rcases hk with hk | hk
  · -- the bit that is shifted out is zero, and what lies behind it is less than half
    have hbits : em.shiftRightOne = ⟨k, false, em.roundBit || em.stickyBit⟩ := by
      simp only [ExtendedMantissa.shiftRightOne, hk]
      simp
    have hcast : (em.mantissa : ℚ) = 2 * k := by exact_mod_cast hk
    rw [hbits]
    cases h with
    | exact h => exact .exact (by dsimp only at hcast; linarith)
    | belowHalf hlow hhigh | aboveHalf hlow hhigh =>
      exact .belowHalf (by dsimp only at hcast; linarith) (by dsimp only at hcast; linarith)
    | half h => exact .belowHalf (by dsimp only at hcast; linarith) (by dsimp only at hcast; linarith)
  · have hbits : em.shiftRightOne = ⟨k, true, em.roundBit || em.stickyBit⟩ := by
      simp only [ExtendedMantissa.shiftRightOne, hk, ExtendedMantissa.mk.injEq, bne_iff_ne, and_true]
      omega
    have hcast : (em.mantissa : ℚ) = 2 * k + 1 := by exact_mod_cast hk
    rw [hbits]
    cases h with
    | exact h => exact .half (by dsimp only at hcast; linarith)
    | belowHalf hlow hhigh | aboveHalf hlow hhigh =>
      exact .aboveHalf (by dsimp only at hcast; linarith) (by dsimp only at hcast; linarith)
    | half h => exact .aboveHalf (by dsimp only at hcast; linarith) (by dsimp only at hcast; linarith)

theorem shiftRight (h : Approximates em y) (k : Nat) : Approximates (em >>> k) (y / 2 ^ k) := by
  show Approximates (Nat.repeat ExtendedMantissa.shiftRightOne k em) _
  induction k with
  | zero => rwa [Nat.repeat, pow_zero, div_one]
  | succ k ih =>
    rw [Nat.repeat, pow_succ, ← div_div]
    exact ih.shiftRightOne

/-- A mantissa is rounded to the nearest integer. -/
theorem isNearest (h : Approximates em y) : IsNearest em.roundedMantissa y := by
  cases h with
  | @exact m _ h =>
    show IsNearest m y
    exact .of_lt (by linarith) (by linarith)
  | @belowHalf m _ hlow hhigh =>
    show IsNearest m y
    exact .of_lt (by linarith) hhigh
  | @half m _ h =>
    show IsNearest (m + m % 2) y
    have hbit : ((m % 2 : Nat) : ℚ) = 0 ∨ ((m % 2 : Nat) : ℚ) = 1 := by
      exact_mod_cast Nat.mod_two_eq_zero_or_one m
    refine ⟨?_, ?_, by omega⟩ <;> push_cast <;> rcases hbit with hbit | hbit <;> rw [hbit] <;> linarith
  | @aboveHalf m _ hlow hhigh =>
    show IsNearest (m + 1) y
    exact .of_lt (by push_cast; linarith) (by push_cast; linarith)

end Approximates

/-- A quotient that was not divided to the end. -/
theorem approximates_div (a : Nat) {b : Nat} (hb : 0 < b) :
    Approximates (.ofMantissaAndAccuracy (a / b) (accuracyOfFraction (a % b) b)) (a / b) := by
  have hpos : (0 : ℚ) < b := by exact_mod_cast hb
  have hlt : ((a % b : Nat) : ℚ) < b := by exact_mod_cast Nat.mod_lt a hb
  have hy : (a / b : ℚ) = (a / b : Nat) + (a % b : Nat) / b := by
    rw [div_eq_iff hpos.ne', add_mul, div_mul_cancel₀ _ hpos.ne']
    exact_mod_cast (Nat.div_add_mod' a b).symm
  rw [hy]
  generalize (a / b : Nat) = m
  generalize a % b = r at hlt
  have hhalf : (r : ℚ) / b < 1 / 2 ↔ 2 * r < b := by
    rw [div_lt_div_iff₀ hpos two_pos, one_mul, mul_comm]
    exact_mod_cast Iff.rfl
  have hhalf' : 1 / 2 < (r : ℚ) / b ↔ b < 2 * r := by
    rw [div_lt_div_iff₀ two_pos hpos, one_mul, mul_comm]
    exact_mod_cast Iff.rfl
  rw [accuracyOfFraction]
  split
  · next h => exact .exact (by simp [h])
  · next h =>
    have hr : 0 < (r : ℚ) / b := div_pos (by exact_mod_cast Nat.pos_of_ne_zero h) hpos
    have hone : (r : ℚ) / b < 1 := (div_lt_one hpos).mpr hlt
    rcases lt_trichotomy (2 * r) b with hcmp | hcmp | hcmp
    · rw [Nat.compare_eq_lt.mpr hcmp]
      exact .belowHalf (by linarith) (by linarith [hhalf.mpr hcmp])
    · rw [Nat.compare_eq_eq.mpr hcmp]
      have hle : ¬ (r : ℚ) / b < 1 / 2 := fun hlt => absurd (hhalf.mp hlt) (by omega)
      have hge : ¬ 1 / 2 < (r : ℚ) / b := fun hlt => absurd (hhalf'.mp hlt) (by omega)
      exact .half (by linarith [not_lt.mp hle, not_lt.mp hge])
    · rw [Nat.compare_eq_gt.mpr hcmp]
      exact .aboveHalf (by linarith [hhalf'.mpr hcmp]) (by linarith)

/-! ### Rooms -/

/-- A number that rounds to the double with the given mantissa and exponent: counted in quarters of
the last place, it is at most two away, but below a power of two only one. The mantissa of a double
that is half-way from another one is even. -/
structure InRoom (m : Nat) (e : Int) (q : ℚ) : Prop where
  low : (4 * m - Decimal.roomBelow m e : ℚ) ≤ 4 * (q / 2 ^ e)
  high : 4 * (q / 2 ^ e) ≤ 4 * m + 2
  low_lt : m % 2 = 1 → (4 * m - Decimal.roomBelow m e : ℚ) < 4 * (q / 2 ^ e)
  high_lt : m % 2 = 1 → 4 * (q / 2 ^ e) < 4 * m + 2

/-- Mantissa and exponent of a double, if there were no greatest one. Zero has the least exponent. -/
structure Fits (m : Nat) (e : Int) : Prop where
  lt : m < 2 ^ 53
  least : -1074 ≤ e
  full : 2 ^ 52 ≤ m ∨ e = -1074

theorem IsMagnitude.fits {m : Nat} {e : Int} (h : IsMagnitude m e) : Fits m e :=
  ⟨h.lt, h.least, h.full⟩

section

variable {m m' M : Nat} {e e' E : Int} {q : ℚ} {acc : Accuracy}

/-- The room below is the smaller one below the powers of two, but for the least double with all its
bits. -/
theorem roomBelow_cases (m : Nat) (e : Int) :
    Decimal.roomBelow m e = 1 ∧ m = 2 ^ 52 ∧ e ≠ -1074 ∨
      Decimal.roomBelow m e = 2 ∧ (m = 2 ^ 52 → e = -1074) := by
  unfold Decimal.roomBelow
  split
  · next hpower =>
    refine .inl ⟨rfl, ?_⟩
    simpa [Decimal.minExponent, Decimal.fullMantissa] using hpower
  · next hpower =>
    refine .inr ⟨rfl, ?_⟩
    simpa [Decimal.minExponent, Decimal.fullMantissa] using hpower

theorem roomBelow_bounds (m : Nat) (e : Int) :
    1 ≤ Decimal.roomBelow m e ∧ Decimal.roomBelow m e ≤ 2 := by
  rcases roomBelow_cases m e with ⟨hroom, -⟩ | ⟨hroom, -⟩ <;> rw [hroom] <;> decide

theorem roomBelow_eq_one (he : e ≠ -1074) : Decimal.roomBelow (2 ^ 52) e = 1 := by
  rcases roomBelow_cases (2 ^ 52) e with ⟨hroom, -⟩ | ⟨-, hpower⟩
  · exact hroom
  · exact absurd (hpower rfl) he

theorem two_pow_le_div_iff (k : Nat) (e : Int) : (2 : ℚ) ^ k ≤ q / 2 ^ e ↔ (2 : ℚ) ^ (k + e) ≤ q := by
  rw [le_div_iff₀ (zpow_pos two_pos e), ← zpow_natCast, ← zpow_add₀ two_ne_zero]

theorem div_lt_two_pow_iff (k : Nat) (e : Int) : q / 2 ^ e < (2 : ℚ) ^ k ↔ q < (2 : ℚ) ^ (k + e) := by
  rw [div_lt_iff₀ (zpow_pos two_pos e), ← zpow_natCast, ← zpow_add₀ two_ne_zero]

namespace InRoom

/-- A double is at most half a place away. -/
theorem isNearest (h : InRoom m e q) : IsNearest m (q / 2 ^ e) := by
  have hroom : (Decimal.roomBelow m e : ℚ) ≤ 2 := by exact_mod_cast (roomBelow_bounds m e).2
  refine ⟨by linarith [h.low], by linarith [h.high], fun hodd => ?_⟩
  exact ⟨by linarith [h.low_lt hodd], by linarith [h.high_lt hodd]⟩

/-- Half a place is enough, since nothing below a power of two has its exponent. -/
theorem of_isNearest (h : IsNearest m (q / 2 ^ e)) (hfull : 2 ^ 52 ≤ q / 2 ^ e ∨ e = -1074) :
    InRoom m e q := by
  have hlow : (4 * m - Decimal.roomBelow m e : ℚ) ≤ 4 * (q / 2 ^ e) ∧
      (m % 2 = 1 → (4 * m - Decimal.roomBelow m e : ℚ) < 4 * (q / 2 ^ e)) := by
    rcases roomBelow_cases m e with ⟨hroom, hm, he⟩ | ⟨hroom, -⟩ <;> rw [hroom]
    · have hcast : (m : ℚ) = 2 ^ 52 := by exact_mod_cast hm
      have hfull := hfull.resolve_right he
      push_cast
      constructor <;> intros <;> linarith
    · push_cast
      exact ⟨by linarith [h.low], fun hodd => by linarith [(h.strict hodd).1]⟩
  exact ⟨hlow.1, by linarith [h.high], hlow.2, fun hodd => by linarith [(h.strict hodd).2]⟩

/-- A double is in its own room. -/
theorem self (m : Nat) (e : Int) : InRoom m e (m * 2 ^ e) := by
  have htwo : (2 : ℚ) ^ e ≠ 0 := zpow_ne_zero e two_ne_zero
  have hpos : (1 : ℚ) ≤ Decimal.roomBelow m e := by exact_mod_cast (roomBelow_bounds m e).1
  constructor <;> rw [mul_div_cancel_right₀ _ htwo] <;> intros <;> linarith

/-- The greatest mantissa is odd, and so its room ends before the half. -/
theorem div_lt (hroom : InRoom m e q) (hm : m < 2 ^ 53) : q / 2 ^ e < 2 ^ 53 - 1 / 2 := by
  have hnearest := hroom.isNearest
  by_cases htop : m + 1 = 2 ^ 53
  · have hcast : (m : ℚ) + 1 = 2 ^ 53 := by exact_mod_cast htop
    linarith [(hnearest.strict (by omega)).2]
  · have hle : (m : ℚ) + 2 ≤ 2 ^ 53 := by exact_mod_cast (by omega : m + 2 ≤ 2 ^ 53)
    linarith [hnearest.high]

/-- The least of the mantissas with all bits has the smaller room below. -/
theorem le_div (hroom : InRoom m e q) (hm : 2 ^ 52 ≤ m) (he : e ≠ -1074) :
    2 ^ 52 - 1 / 4 ≤ q / 2 ^ e := by
  rcases hm.eq_or_lt with rfl | hlt
  · have hlow := hroom.low
    rw [roomBelow_eq_one he] at hlow
    push_cast at hlow
    linarith
  · have hle : (2 : ℚ) ^ 52 + 1 ≤ m := by exact_mod_cast hlt
    linarith [hroom.isNearest.low]

theorem exponent_le (hroom : InRoom m e q) (h : Fits m e) (hroom' : InRoom m' e' q)
    (h' : Fits m' e') : e' ≤ e := by
  by_contra hlt
  have hleast := h.least
  have hlow := hroom'.le_div (h'.full.resolve_right (by omega)) (by omega)
  have hhigh := hroom.div_lt h.lt
  -- the room of the greater exponent begins where that of the smaller one ends
  have hscale : q / 2 ^ e = q / 2 ^ e' * 2 ^ (e' - e) := by
    rw [zpow_sub₀ two_ne_zero, div_mul_div_cancel₀ (zpow_ne_zero _ two_ne_zero)]
  have htwo : (2 : ℚ) ^ (1 : Int) ≤ 2 ^ (e' - e) := zpow_le_zpow_right₀ one_le_two (by omega)
  rw [zpow_one] at htwo
  nlinarith

/-- **No two rooms share a number.** -/
theorem unique (hroom : InRoom m e q) (h : Fits m e) (hroom' : InRoom m' e' q) (h' : Fits m' e') :
    m = m' ∧ e = e' := by
  obtain rfl : e = e' := (hroom'.exponent_le h' hroom h).antisymm (hroom.exponent_le h hroom' h')
  exact ⟨hroom.isNearest.unique hroom'.isNearest, rfl⟩

end InRoom

/-! ### Rounding -/

theorem targetExponent_binary64 (m : Nat) (e : Int) :
    Format.binary64.targetExponent (totalExponent m e) = max (m.log2 + e - 52) (-1074) := by
  have hmin : Format.binary64.minExponent = -1074 := by decide
  rw [Format.targetExponent, totalExponent, hmin, mantissaBits_binary64]
  omega

/-- An unpacked number by its parts. -/
def ofParts (s : Sign) (m : Nat) (e : Int) : UnpackedFloat :=
  if h : m = 0 then .zero s else .finite s m e (Nat.pos_of_ne_zero h)

/-- A number with a sign is **rounded** to the unpacked number in whose room it is. -/
def Rounds (q : ℚ) (s : Sign) (u : UnpackedFloat) : Prop :=
  ∃ m e, Fits m e ∧ InRoom m e q ∧ u = ofParts s m e

/-- A truncated number has the leading bit of the number. -/
theorem two_zpow_log2_bounds (hM : (M : ℚ) ≤ q / 2 ^ E ∧ q / 2 ^ E < M + 1) :
    (0 < M → (2 : ℚ) ^ (M.log2 + E) ≤ q) ∧ q < (2 : ℚ) ^ (M.log2 + 1 + E) := by
  constructor
  · intro hpos
    refine (two_pow_le_div_iff M.log2 E).mp (le_trans ?_ hM.1)
    exact_mod_cast Nat.log2_self_le hpos.ne'
  · have hlt : M + 1 ≤ 2 ^ (M.log2 + 1) := Nat.lt_log2_self
    refine (div_lt_two_pow_iff (M.log2 + 1) E).mp (hM.2.trans_le ?_)
    exact_mod_cast hlt

/-- The exponent that a number is brought to leaves it no more bits than a mantissa has, and no fewer
unless it is the least one. -/
theorem targetExponent_bounds (hM : (M : ℚ) ≤ q / 2 ^ E ∧ q / 2 ^ E < M + 1)
    (hE : E ≤ -1074 ∨ (2 : ℚ) ^ (52 + E) ≤ q) {T : Int} (hT : max (M.log2 + E - 52) (-1074) = T) :
    E ≤ T ∧ q / 2 ^ T < 2 ^ 53 ∧ (2 ^ 52 ≤ q / 2 ^ T ∨ T = -1074) := by
  obtain ⟨hleading, hbelow⟩ := two_zpow_log2_bounds hM
  have hbits : E ≤ -1074 ∨ 52 + E < M.log2 + 1 + E := hE.imp_right fun hE =>
    (zpow_lt_zpow_iff_right₀ one_lt_two).mp (hE.trans_lt hbelow)
  refine ⟨by omega, ?_, ?_⟩
  · refine (div_lt_two_pow_iff 53 T).mpr (hbelow.trans_le ?_)
    exact zpow_le_zpow_right₀ one_le_two (by omega)
  · refine or_iff_not_imp_right.mpr fun hleast => ?_
    have hpos : 0 < M := by
      by_contra hM
      obtain rfl : M = 0 := by omega
      have hlog : Nat.log2 0 = 0 := by decide
      omega
    refine (two_pow_le_div_iff 52 T).mpr (le_trans ?_ (hleading hpos))
    exact zpow_le_zpow_right₀ one_le_two (by omega)

/-- A rounded mantissa that fits stays as it is. -/
theorem shiftToTargetExponent_of_lt (hm : m < 2 ^ 53) (he : -1074 ≤ e) :
    (shiftToTargetExponent .binary64 m e .exact).1.mantissa = m ∧
      (shiftToTargetExponent .binary64 m e .exact).2 = e := by
  have hlog := log2_le_of_lt hm
  have hnone : (max (m.log2 + e - 52) (-1074) - e).toNat = 0 := by omega
  rw [shiftToTargetExponent, targetExponent_binary64, shiftToExponent]
  simp only [hnone, Whole.mantissa_shiftRight]
  simp [ExtendedMantissa.ofMantissaAndAccuracy]

/-- If all its bits were one, it is shifted once more. -/
theorem shiftToTargetExponent_two_pow (he : -1074 ≤ e) :
    (shiftToTargetExponent .binary64 (2 ^ 53) e .exact).1.mantissa = 2 ^ 52 ∧
      (shiftToTargetExponent .binary64 (2 ^ 53) e .exact).2 = e + 1 := by
  have hlog : (2 ^ 53 : Nat).log2 = 53 := Nat.log2_two_pow
  have hone : (max ((53 : Nat) + e - 52) (-1074) - e).toNat = 1 := by omega
  rw [shiftToTargetExponent, targetExponent_binary64, hlog, shiftToExponent]
  simp only [hone, Whole.mantissa_shiftRight]
  exact ⟨rfl, rfl⟩

/-- The first shift brings a number to its exponent. -/
theorem exists_shiftToTargetExponent {T : Int} (hT : max (M.log2 + E - 52) (-1074) = T) (hle : E ≤ T)
    (happrox : Approximates (.ofMantissaAndAccuracy M acc) (q / 2 ^ E)) :
    ∃ em, shiftToTargetExponent .binary64 M E acc = (em, T) ∧ Approximates em (q / 2 ^ T) := by
  have hshift := happrox.shiftRight (T - E).toNat
  have hscale : q / 2 ^ E / 2 ^ (T - E).toNat = q / 2 ^ T := by
    rw [div_div, ← zpow_natCast, ← zpow_add₀ two_ne_zero]
    congr 2
    omega
  rw [hscale] at hshift
  refine ⟨_, ?_, hshift⟩
  rw [shiftToTargetExponent, targetExponent_binary64, hT, shiftToExponent]
  simp only [Prod.mk.injEq, true_and]
  omega

/-- A number that is rounded up to a power of two is in the room of this power. -/
theorem InRoom.of_isNearest_two_pow (h : IsNearest (2 ^ 53) (q / 2 ^ e)) (hlt : q / 2 ^ e < 2 ^ 53)
    (he : -1074 ≤ e) : InRoom (2 ^ 52) (e + 1) q := by
  have heven : ¬ 2 ^ 52 % 2 = 1 := by decide
  have hhalf : q / 2 ^ (e + 1) = q / 2 ^ e / 2 := by
    rw [zpow_add_one₀ two_ne_zero, div_div]
  have hlow := h.low
  push_cast at hlow
  refine ⟨?_, ?_, fun hodd => absurd hodd heven, fun hodd => absurd hodd heven⟩
  · rw [roomBelow_eq_one (by omega), hhalf]
    push_cast
    linarith
  · rw [hhalf]
    push_cast
    linarith

/-- **Rounding.** A number that comes with enough bits is rounded. -/
theorem rounds_roundWithAccuracy
    (happrox : Approximates (.ofMantissaAndAccuracy M acc) (q / 2 ^ E))
    (hE : E ≤ -1074 ∨ (2 : ℚ) ^ (52 + E) ≤ q) (s : Sign) :
    Rounds q s (roundWithAccuracy .binary64 s M E acc) := by
  have hM : (M : ℚ) ≤ q / 2 ^ E ∧ q / 2 ^ E < M + 1 := by
    have hmantissa : (ExtendedMantissa.ofMantissaAndAccuracy M acc).mantissa = M := by
      rcases acc with _ | (_ | _ | _) <;> rfl
    have hbounds := happrox.bounds
    rwa [hmantissa] at hbounds
  obtain ⟨T, hT⟩ : ∃ T, max (M.log2 + E - 52 : Int) (-1074) = T := ⟨_, rfl⟩
  obtain ⟨hle, hbelow, hfull⟩ := targetExponent_bounds hM hE hT
  have hleast : -1074 ≤ T := by omega
  obtain ⟨em, hfirst, hshift⟩ := exists_shiftToTargetExponent hT hle happrox
  have hnearest := hshift.isNearest
  rw [roundWithAccuracy, hfirst]
  dsimp only
  generalize em.roundedMantissa = m at hnearest
  -- the second shift is needed if all bits were one
  have hm : m ≤ 2 ^ 53 := by
    have hlt : (m : ℚ) < 2 ^ 53 + 1 := by linarith [hnearest.low]
    exact Nat.lt_succ_iff.mp (by exact_mod_cast hlt)
  rcases hm.lt_or_eq with hm | rfl
  · obtain ⟨hmantissa, hexponent⟩ := shiftToTargetExponent_of_lt hm hleast
    have hfull' : 2 ^ 52 ≤ m ∨ T = -1074 := hfull.imp_left fun hfull => by
      have hlt : (2 ^ 52 : ℚ) < m + 1 := by linarith [hnearest.high]
      exact Nat.lt_succ_iff.mp (by exact_mod_cast hlt)
    refine ⟨m, T, ⟨hm, hleast, hfull'⟩, .of_isNearest hnearest hfull, ?_⟩
    simp only [hmantissa, hexponent, ofParts]
  · obtain ⟨hmantissa, hexponent⟩ := shiftToTargetExponent_two_pow hleast
    refine ⟨2 ^ 52, T + 1, ⟨by decide, by omega, .inl le_rfl⟩,
      .of_isNearest_two_pow hnearest hbelow hleast, ?_⟩
    simp only [hmantissa, hexponent, ofParts]

/-- A number too large for a double is packed as an infinity. -/
theorem pack_of_lt (s : Sign) (hpos : 0 < m) (he : 971 < e) :
    Float.Model.pack (.finite s m e hpos) = Float.Model.pack (.infinity s) := by
  have hbits : UnpackedFloat.pack .binary64 (.finite s m e hpos) =
      UnpackedFloat.pack .binary64 (.infinity s) := by
    have hbiased : 2 ^ 11 ≤ (e + (1023 : Nat) + (52 : Nat)).toNat + 1 := by omega
    exact if_pos hbiased
  simp only [Float.Model.pack, hbits]

namespace Rounds

variable {s t : Sign} {u : UnpackedFloat}

/-- **Rounding to a double.** A number is rounded to a double exactly if it is in its room. -/
theorem unpack_pack_iff (hu : Rounds q s u) (h : IsMagnitude m e) :
    (Float.Model.pack u).unpack = .finite t m e h.pos ↔ t = s ∧ InRoom m e q := by
  obtain ⟨m', e', hfits, hroom, rfl⟩ := hu
  constructor
  · intro heq
    rw [ofParts] at heq
    split at heq
    · rw [(IsDouble.zero s).unpack_pack] at heq
      cases heq
    · next hm =>
      rcases le_or_gt e' 971 with he | he
      · have h' : IsMagnitude m' e' := ⟨Nat.pos_of_ne_zero hm, hfits.lt, hfits.least, he, hfits.full⟩
        rw [(IsDouble.finite s h').unpack_pack] at heq
        cases heq
        exact ⟨rfl, hroom⟩
      · rw [pack_of_lt s _ he, (IsDouble.infinity s).unpack_pack] at heq
        cases heq
  · rintro ⟨rfl, hroom'⟩
    obtain ⟨rfl, rfl⟩ := hroom.unique hfits hroom' h.fits
    rw [ofParts, dif_neg h.pos.ne', (IsDouble.finite t h).unpack_pack]

end Rounds

end

end LogoEngine
