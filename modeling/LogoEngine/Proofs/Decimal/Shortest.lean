import LogoEngine.Decimal.Layout
import LogoEngine.Proofs.Decimal.Scientific

/-!
# Shortest digits are in the room

The candidates of a grid are tested with whole numbers; what passes is in the room of the double
(`hits_iff`). The search tries finer and finer grids. The exponent of the first digit is not too
large, and so the grid of eighteen digits has a step below a quarter of the last place: there the
candidate below the double itself passes, and the search comes to an end.

Main statement: `exists_denotes_shortest`.
-/

namespace LogoEngine.Decimal

/-! ### The test of a candidate -/

section

variable {m : Nat} {e unit : Int} {c : Nat}

theorem zpow_eq_div {a : ℚ} (ha : a ≠ 0) (k : Int) : a ^ k = a ^ k.toNat / a ^ (-k).toNat := by
  rw [eq_div_iff (pow_ne_zero _ ha), ← zpow_natCast, ← zpow_natCast, ← zpow_add₀ ha]
  congr 1
  omega

/-- **What passes the test is in the room.** -/
theorem hits_iff (hm : 0 < m) : hits m e unit c = true ↔ InRoom m e (c * 10 ^ unit) := by
  -- both sides are brought to a common denominator
  obtain ⟨candidate, hcandidate⟩ :
      ∃ k, k = 4 * c * Nat.pow 10 unit.toNat * Nat.pow 2 (-e).toNat := ⟨_, rfl⟩
  obtain ⟨place, hplace⟩ : ∃ k, k = Nat.pow 10 (-unit).toNat * Nat.pow 2 e.toNat := ⟨_, rfl⟩
  have hpos : (0 : ℚ) < place := by
    rw [hplace]
    exact_mod_cast Nat.mul_pos (Nat.pow_pos (by decide)) (Nat.pow_pos (by decide))
  have hquarters : 4 * (c * 10 ^ unit / 2 ^ e : ℚ) = candidate / place := by
    rw [zpow_eq_div (by norm_num) unit, zpow_eq_div two_ne_zero e, hcandidate, hplace]
    simp only [Nat.pow_eq]
    push_cast
    field_simp
  have hroom : (4 * m - roomBelow m e : ℚ) = (4 * m - roomBelow m e : Nat) := by
    have hle := (roomBelow_bounds m e).2
    push_cast [Nat.cast_sub (show roomBelow m e ≤ 4 * m by omega)]
    rfl
  have hlow : (4 * m - roomBelow m e : ℚ) ≤ candidate / place ↔
      (4 * m - roomBelow m e) * place ≤ candidate := by
    rw [hroom, le_div_iff₀ hpos]
    exact_mod_cast Iff.rfl
  have hhigh : (candidate / place : ℚ) ≤ 4 * m + 2 ↔ candidate ≤ (4 * m + 2) * place := by
    rw [div_le_iff₀ hpos]
    exact_mod_cast Iff.rfl
  have hlow' : (4 * m - roomBelow m e : ℚ) < candidate / place ↔
      (4 * m - roomBelow m e) * place < candidate := by
    rw [hroom, lt_div_iff₀ hpos]
    exact_mod_cast Iff.rfl
  have hhigh' : (candidate / place : ℚ) < 4 * m + 2 ↔ candidate < (4 * m + 2) * place := by
    rw [div_lt_iff₀ hpos]
    exact_mod_cast Iff.rfl
  rw [hits, ← hcandidate, ← hplace]
  constructor
  · intro hhits
    split at hhits
    · next heven =>
      simp only [Bool.and_eq_true, decide_eq_true_eq] at hhits
      have hodd : ¬ m % 2 = 1 := by simp only [beq_iff_eq] at heven; omega
      constructor <;> rw [hquarters]
      · exact hlow.mpr hhits.1
      · exact hhigh.mpr hhits.2
      · exact fun h => absurd h hodd
      · exact fun h => absurd h hodd
    · simp only [Bool.and_eq_true, decide_eq_true_eq] at hhits
      constructor <;> rw [hquarters]
      · exact (hlow'.mpr hhits.1).le
      · exact (hhigh'.mpr hhits.2).le
      · exact fun _ => hlow'.mpr hhits.1
      · exact fun _ => hhigh'.mpr hhits.2
  · rintro ⟨hl, hh, hl', hh'⟩
    rw [hquarters] at hl hh hl' hh'
    split
    · simp only [Bool.and_eq_true, decide_eq_true_eq]
      exact ⟨hlow.mp hl, hhigh.mp hh⟩
    · next hodd =>
      have hodd : m % 2 = 1 := by simp only [beq_iff_eq] at hodd; omega
      simp only [Bool.and_eq_true, decide_eq_true_eq]
      exact ⟨hlow'.mp (hl' hodd), hhigh'.mp (hh' hodd)⟩

/-! ### The first digit -/

/-- The count of zeros is large enough, unless the fuel is used up. -/
theorem le_mul_ten_pow_leadingZeros {den fuel num : Nat} (h : den ≤ num * 10 ^ fuel) :
    den ≤ num * 10 ^ leadingZeros den fuel num := by
  induction fuel generalizing num with
  | zero => exact h
  | succ fuel ih =>
    rw [leadingZeros]
    split
    · next hle => rwa [pow_zero, mul_one]
    · have hrest : den ≤ 10 * num * 10 ^ leadingZeros den fuel (10 * num) :=
        ih (by rw [pow_succ] at h; linarith)
      rw [pow_succ]
      linarith

/-- The power of ten of the first digit is reached. -/
theorem ten_zpow_decimalExponent_le {num den : Nat} (hden : 0 < den) (hnum : den ≤ num * 10 ^ 400) :
    (10 : ℚ) ^ decimalExponent num den ≤ num / den := by
  have hpos : (0 : ℚ) < den := by exact_mod_cast hden
  rw [le_div_iff₀ hpos, decimalExponent]
  split
  · next hle =>
    obtain ⟨k, hk⟩ : ∃ k, (Nat.toDigits 10 (num / den)).length = k + 1 :=
      Nat.exists_eq_add_one.mpr Nat.length_toDigits_pos
    -- with one digit less the quotient would be smaller
    have hpow : 10 ^ k ≤ num / den := by
      rcases Nat.eq_zero_or_pos k with rfl | hkpos
      · exact Nat.div_pos hle hden
      · by_contra hlt
        have := (Nat.length_toDigits_le_iff (by decide) hkpos).mpr (not_le.mp hlt)
        omega
    have hmul : 10 ^ k * den ≤ num := (Nat.mul_le_mul_right _ hpow).trans (Nat.div_mul_le_self ..)
    rw [hk, Nat.cast_succ, add_sub_cancel_right, zpow_natCast]
    exact_mod_cast hmul
  · have hle := le_mul_ten_pow_leadingZeros hnum
    rw [zpow_neg, zpow_natCast, inv_mul_le_iff₀ (by positivity), mul_comm]
    exact_mod_cast hle

/-! ### Grids -/

theorem roundDiv_cases (tie : Tie) (num den : Nat) :
    tie.roundDiv num den = num / den ∨ tie.roundDiv num den = num / den + 1 := by
  simp only [Tie.roundDiv]
  split
  · exact .inl rfl
  · split
    · exact .inr rfl
    · cases tie with
      | up => exact .inr rfl
      | even =>
        rcases Nat.mod_two_eq_zero_or_one (num / den) with h | h <;> simp [Tie.pick, h]

/-- The candidate just below the double. -/
def gridFloor (m : Nat) (e unit : Int) : Nat :=
  (ratio m e).1 * Nat.pow 10 (-unit).toNat / ((ratio m e).2 * Nat.pow 10 unit.toNat)

theorem gridChoice_eq (tie : Tie) (m : Nat) (e unit : Int) :
    gridChoice tie m e unit =
      match hits m e unit (gridFloor m e unit), hits m e unit (gridFloor m e unit + 1) with
      | true, true => some (tie.roundDiv ((ratio m e).1 * Nat.pow 10 (-unit).toNat)
        ((ratio m e).2 * Nat.pow 10 unit.toNat))
      | true, false => some (gridFloor m e unit)
      | false, true => some (gridFloor m e unit + 1)
      | false, false => none :=
  rfl

/-- A grid has a candidate that passes, or at least the one below the double does not. -/
theorem gridChoice_cases (tie : Tie) (m : Nat) (e unit : Int) :
    (∃ c, gridChoice tie m e unit = some c ∧ hits m e unit c = true) ∨
      gridChoice tie m e unit = none ∧ hits m e unit (gridFloor m e unit) = false := by
  rw [gridChoice_eq]
  cases hfloor : hits m e unit (gridFloor m e unit) with
  | true =>
    cases hnext : hits m e unit (gridFloor m e unit + 1) with
    | true =>
      refine .inl ⟨_, rfl, ?_⟩
      rcases roundDiv_cases tie ((ratio m e).1 * Nat.pow 10 (-unit).toNat)
        ((ratio m e).2 * Nat.pow 10 unit.toNat) with heq | heq <;> rw [heq]
      · exact hfloor
      · exact hnext
    | false => exact .inl ⟨_, rfl, hfloor⟩
  | false =>
    cases hnext : hits m e unit (gridFloor m e unit + 1) with
    | true => exact .inl ⟨_, rfl, hnext⟩
    | false => exact .inr ⟨rfl, rfl⟩

/-- On a grid finer than a quarter of the last place the candidate below the double passes. -/
theorem hits_gridFloor (hm : 0 < m) (hunit : 4 * (10 : ℚ) ^ unit ≤ 2 ^ e) :
    hits m e unit (gridFloor m e unit) = true := by
  have hten : (0 : ℚ) < 10 ^ unit := zpow_pos (by norm_num) unit
  have htwo : (0 : ℚ) < 2 ^ e := zpow_pos two_pos e
  -- the candidate is at most one step of the grid away
  have hfloor : (gridFloor m e unit * 10 ^ unit : ℚ) ≤ m * 2 ^ e ∧
      (m * 2 ^ e : ℚ) < (gridFloor m e unit + 1) * 10 ^ unit := by
    have hratio : ((ratio m e).2 : ℚ) ≠ 0 := by exact_mod_cast (ratio_pos hm e).2.ne'
    have hvalue : (m * 2 ^ e : ℚ) = ((ratio m e).1 * Nat.pow 10 (-unit).toNat : Nat) /
        ((ratio m e).2 * Nat.pow 10 unit.toNat : Nat) * 10 ^ unit := by
      rw [← ratio_eq, zpow_eq_div (by norm_num) unit]
      simp only [Nat.pow_eq]
      push_cast
      field_simp
    rw [hvalue, gridFloor]
    constructor
    · exact mul_le_mul_of_nonneg_right Nat.cast_div_le hten.le
    · refine mul_lt_mul_of_pos_right ?_ hten
      rw [← Nat.floor_div_eq_div (K := ℚ)]
      exact Nat.lt_floor_add_one _
  have hquarter : 4 * ((10 : ℚ) ^ unit / 2 ^ e) ≤ 1 := by
    rw [← mul_div_assoc]
    exact (div_le_one htwo).mpr hunit
  have hroom : (1 : ℚ) ≤ roomBelow m e := by exact_mod_cast (roomBelow_bounds m e).1
  have hbelow : (gridFloor m e unit * 10 ^ unit / 2 ^ e : ℚ) ≤ m :=
    (div_le_iff₀ htwo).mpr hfloor.1
  have habove : (m : ℚ) < gridFloor m e unit * 10 ^ unit / 2 ^ e + 10 ^ unit / 2 ^ e := by
    rw [← add_div, lt_div_iff₀ htwo]
    linarith [hfloor.2]
  refine (hits_iff hm).mpr ⟨?_, ?_, fun _ => ?_, fun _ => ?_⟩ <;> linarith

/-! ### The search -/

/-- If the candidate below the double passes on some grid, then the search ends there or on a coarser
grid, and the digits are those of a candidate that passes. -/
theorem exists_searchGrid (tie : Tie) {first : Int} {fuel count k : Nat} (hm : 0 < m)
    (hhits : hits m e (first + 1 - k) (gridFloor m e (first + 1 - k)) = true) (hlow : count ≤ k)
    (hhigh : k < count + fuel) :
    ∃ (c : Nat) (unit : Int), first + 1 - k ≤ unit ∧ InRoom m e (c * 10 ^ unit) ∧
      searchGrid tie m e first fuel count =
        ⟨dropTrailingZeros (digitsOf c), (digitsOf c).length + unit⟩ := by
  induction fuel generalizing count with
  | zero => omega
  | succ fuel ih =>
    rw [searchGrid]
    rcases gridChoice_cases tie m e (first + 1 - count) with ⟨c, hchoice, hpasses⟩ | ⟨hchoice, hfloor⟩
    · rw [hchoice]
      exact ⟨c, _, by omega, (hits_iff hm).mp hpasses, rfl⟩
    · rw [hchoice]
      refine ih ?_ (by omega)
      rcases Nat.eq_or_lt_of_le hlow with rfl | hlt
      · exact absurd (hhits.symm.trans hfloor) nofun
      · exact hlt

end

/-! ### Digits -/

/-- The number that a list of digits spells. -/
def numberOf (ds : List Nat) : Nat :=
  digitsValue (ds.map digitChar)

/-- Some digits, and the positive number that they are with their point. -/
structure Digits.Denotes (d : Digits) (q : ℚ) : Prop where
  lt_ten : ∀ x ∈ d.digits, x < 10
  ne_nil : d.digits ≠ []
  value : (numberOf d.digits * 10 ^ (d.point - d.digits.length) : ℚ) = q

section

variable {ds : List Nat} {x n : Nat}

theorem isDigit_digitChar (hx : x < 10) : (digitChar x).isDigit = true := by
  revert x
  decide

theorem toNat_of_isDigit {c : Char} (hc : c.isDigit = true) : 48 ≤ c.toNat ∧ c.toNat ≤ 57 :=
  Char.isDigit_iff_toNat.mp hc

theorem digitsOf_lt_ten (hx : x ∈ digitsOf n) : x < 10 := by
  obtain ⟨c, hc, rfl⟩ := List.mem_map.mp hx
  have hbounds := toNat_of_isDigit (Nat.isDigit_of_mem_toDigits (by decide) (by decide) hc)
  have hzero : '0'.toNat = 48 := rfl
  omega

/-- The characters of the digits are those of the decimal. -/
theorem map_digitChar_digitsOf (n : Nat) : (digitsOf n).map digitChar = Nat.toDigits 10 n := by
  have hback : ∀ c ∈ Nat.toDigits 10 n, digitChar (c.toNat - '0'.toNat) = c := fun c hc => by
    have hbounds := toNat_of_isDigit (Nat.isDigit_of_mem_toDigits (by decide) (by decide) hc)
    have hzero : '0'.toNat = 48 := rfl
    rw [digitChar, Nat.add_sub_cancel' (by omega), Char.ofNat_toNat]
  rw [digitsOf, List.map_map]
  exact (List.map_congr_left (g := id) hback).trans (List.map_id _)

theorem numberOf_digitsOf (n : Nat) : numberOf (digitsOf n) = n := by
  rw [numberOf, map_digitChar_digitsOf]
  exact Nat.ofDigitChars_ten_toDigits

/-- Zeros at the end are a power of ten. -/
theorem numberOf_append_zeros (ds : List Nat) (k : Nat) :
    numberOf (ds ++ List.replicate k 0) = numberOf ds * 10 ^ k := by
  have hzeros : digitsValue ((ds ++ List.replicate k 0).map digitChar) =
      Nat.ofDigitChars 10 (List.replicate k '0') (digitsValue (ds.map digitChar)) := by
    rw [List.map_append, List.map_replicate]
    exact Nat.ofDigitChars_append 0
  rw [numberOf, hzeros, Nat.ofDigitChars_replicate_zero, mul_comm]
  rfl

theorem exists_dropTrailingZeros (ds : List Nat) :
    ∃ k, ds = dropTrailingZeros ds ++ List.replicate k 0 := by
  have hzeros : ds.reverse.takeWhile (· == 0) =
      List.replicate (ds.reverse.takeWhile (· == 0)).length 0 :=
    List.eq_replicate_of_mem fun x hx => by simpa using List.mem_takeWhile_imp hx
  refine ⟨(ds.reverse.takeWhile (· == 0)).length, ?_⟩
  calc ds = (ds.reverse.takeWhile (· == 0) ++ ds.reverse.dropWhile (· == 0)).reverse := by
        rw [List.takeWhile_append_dropWhile, List.reverse_reverse]
    _ = dropTrailingZeros ds ++ (ds.reverse.takeWhile (· == 0)).reverse := List.reverse_append
    _ = dropTrailingZeros ds ++ List.replicate (ds.reverse.takeWhile (· == 0)).length 0 := by
        rw [hzeros, List.reverse_replicate, List.length_replicate]

/-- The digits of a candidate denote it, also without the zeros at the end. -/
theorem denotes_dropTrailingZeros {c : Nat} (hc : c ≠ 0) (unit : Int) :
    Digits.Denotes ⟨dropTrailingZeros (digitsOf c), (digitsOf c).length + unit⟩ (c * 10 ^ unit) := by
  obtain ⟨k, hk⟩ := exists_dropTrailingZeros (digitsOf c)
  have hnumber : numberOf (dropTrailingZeros (digitsOf c)) * 10 ^ k = c := by
    rw [← numberOf_append_zeros, ← hk, numberOf_digitsOf]
  have hlength : (digitsOf c).length = (dropTrailingZeros (digitsOf c)).length + k := by
    rw [hk, List.length_append, List.length_replicate, ← hk]
  refine ⟨fun x hx => ?_, fun hnil => ?_, ?_⟩
  · refine digitsOf_lt_ten (n := c) ?_
    rw [hk]
    exact List.mem_append_left _ hx
  · have hnil : dropTrailingZeros (digitsOf c) = [] := hnil
    rw [hnil] at hnumber
    exact hc (hnumber.symm.trans (Nat.zero_mul _))
  · have hplaces : ((digitsOf c).length + unit - (dropTrailingZeros (digitsOf c)).length : Int) =
        k + unit := by omega
    rw [hplaces, zpow_add₀ (by norm_num), zpow_natCast, ← mul_assoc]
    congr 1
    exact_mod_cast hnumber

end

/-- The exponent of the first digit of a double. -/
def firstExponent (m : Nat) (e : Int) : Int :=
  decimalExponent (ratio m e).1 (ratio m e).2

section

variable {m : Nat} {e : Int}

/-- Eighteen digits are enough. -/
theorem hits_gridFloor_eighteen (h : IsMagnitude m e) :
    hits m e (firstExponent m e + 1 - (18 : Nat)) (gridFloor m e (firstExponent m e + 1 - (18 : Nat))) =
      true := by
  have hden := (ratio_pos h.pos e).2
  have hnum : (ratio m e).2 ≤ (ratio m e).1 * 10 ^ 400 := by
    have hpos : (0 : ℚ) < (ratio m e).2 := by exact_mod_cast hden
    have hlow : ((10 : ℚ) ^ 400)⁻¹ ≤ (ratio m e).1 / (ratio m e).2 := by
      rw [ratio_eq, ← zpow_natCast, ← zpow_neg]
      exact (ten_zpow_bounds h (.self m e)).1
    rw [le_div_iff₀ hpos, inv_mul_le_iff₀ (by positivity), mul_comm] at hlow
    exact_mod_cast hlow
  have hfirst : (10 : ℚ) ^ firstExponent m e ≤ m * 2 ^ e := by
    rw [← ratio_eq]
    exact ten_zpow_decimalExponent_le hden hnum
  have hplace : (0 : ℚ) < 2 ^ e := zpow_pos two_pos e
  have htop : (m * 2 ^ e : ℚ) < 2 ^ 53 * 2 ^ e := by
    gcongr
    exact_mod_cast h.lt
  have hstep : (10 : ℚ) ^ (firstExponent m e + 1 - (18 : Nat)) = 10 ^ firstExponent m e / 10 ^ 17 := by
    rw [← zpow_natCast, ← zpow_sub₀ (by norm_num)]
    congr 1
    push_cast
    omega
  refine hits_gridFloor h.pos ?_
  rw [hstep, ← mul_div_assoc, div_le_iff₀ (by norm_num)]
  linarith

/-- The shortest digits are those of a number in the room of the double, on a grid that is no finer
than one where the candidate below the double passes. -/
theorem exists_shortest (tie : Tie) (h : IsMagnitude m e) {k : Nat}
    (hhits : hits m e (firstExponent m e + 1 - k) (gridFloor m e (firstExponent m e + 1 - k)) = true)
    (hlow : 1 ≤ k) (hhigh : k ≤ 18) :
    ∃ (c : Nat) (unit : Int), c ≠ 0 ∧ firstExponent m e + 1 - k ≤ unit ∧ InRoom m e (c * 10 ^ unit) ∧
      shortest tie m e = ⟨dropTrailingZeros (digitsOf c), (digitsOf c).length + unit⟩ := by
  obtain ⟨c, unit, hunit, hroom, hshortest⟩ : ∃ (c : Nat) (unit : Int),
      firstExponent m e + 1 - k ≤ unit ∧ InRoom m e (c * 10 ^ unit) ∧
        shortest tie m e = ⟨dropTrailingZeros (digitsOf c), (digitsOf c).length + unit⟩ :=
    exists_searchGrid tie h.pos hhits hlow (by omega)
  refine ⟨c, unit, ?_, hunit, hroom, hshortest⟩
  rintro rfl
  have hpos := (ten_zpow_bounds h hroom).1
  rw [Nat.cast_zero, zero_mul] at hpos
  exact absurd hpos (not_le.mpr (zpow_pos (by norm_num) _))

/-- **The shortest digits** of a double denote a number in its room. -/
theorem exists_denotes_shortest (tie : Tie) (h : IsMagnitude m e) :
    ∃ q, InRoom m e q ∧ (shortest tie m e).Denotes q := by
  obtain ⟨c, unit, hc, -, hroom, hshortest⟩ :=
    exists_shortest tie h (hits_gridFloor_eighteen h) (by decide) (by decide)
  exact ⟨_, hroom, hshortest ▸ denotes_dropTrailingZeros hc unit⟩

end

end LogoEngine.Decimal
