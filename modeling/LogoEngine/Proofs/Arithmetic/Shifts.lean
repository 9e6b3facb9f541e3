import LogoEngine.Proofs.Arithmetic.Division

/-!
# The two shifts

`ASHIFT` and `LSHIFT` shift a 32-bit integer to the left by a count, and to the right if the count is
negative: the one copies the sign, the other takes the word without a sign and puts zeros in front.
Words are shifted by no more than 31 places. Of a count only what is left by a division by 32 toward
zero is used, so that a count whose size is below 32 is the number of places, a greater one is not,
and a multiple of 32 shifts nothing.

Main statement: `ashift_lshift`.
-/

namespace LogoEngine

/-- An integer shifted by a count, brought back into a word if the shift is to the left. To the right
it is divided, and what is left over is dropped. -/
def arithmeticallyShifted (n k : Int) : Int :=
  if 0 ≤ k then (n * 2 ^ k.toNat).bmod (2 ^ 32) else n / 2 ^ (-k).toNat

/-- An integer shifted by a count. To the right the word is divided as if it had no sign. -/
def logicallyShifted (n k : Int) : Int :=
  if 0 ≤ k then (n * 2 ^ k.toNat).bmod (2 ^ 32) else (n % (2 ^ 32 : Nat) / 2 ^ (-k).toNat).bmod (2 ^ 32)

namespace Integer32

variable (a count : Int32)

/-- Without its sign a word is the integer modulo 2 to the power of 32. -/
theorem toNat_toUInt32 : (a.toUInt32.toNat : Int) = a.toInt % (2 ^ 32 : Nat) := by
  have hlt : (a.toUInt32.toNat : Int) < (2 ^ 32 : Nat) := Int.ofNat_lt.mpr a.toUInt32.toNat_lt
  have hword : a.toInt = (a.toUInt32.toNat : Int).bmod (2 ^ 32) := a.toBitVec.toInt_eq_toNat_bmod
  rw [hword, Int.bmod_emod]
  exact (Int.emod_eq_of_lt (Int.natCast_nonneg _) hlt).symm

/-- Read back with a sign, it is brought into the range of words. -/
theorem toInt_toInt32 (b : UInt32) : b.toInt32.toInt = (b.toNat : Int).bmod (2 ^ 32) :=
  b.toBitVec.toInt_eq_toNat_bmod

theorem nonneg_iff : 0 ≤ count ↔ 0 ≤ count.toInt :=
  Int32.le_iff_toInt_le

/-- The size of a count is that of the integer, also of the least one. -/
theorem toNat_magnitude : (magnitude count).toNat = count.toInt.natAbs := by
  have hleast := count.le_toInt
  have hmost := count.toInt_lt
  have hnegative : count < 0 ↔ count.toInt < 0 := Int32.lt_iff_toInt_lt
  rw [← Int.natCast_inj, magnitude]
  split
  · next hlt =>
    have hlt := hnegative.mp hlt
    rw [toNat_toUInt32, Int32.toInt_neg, Int.bmod_emod]
    omega
  · next hge =>
    have hge := mt hnegative.mpr hge
    rw [toNat_toUInt32]
    omega

/-- The places that a word is shifted by. -/
theorem toNat_magnitude_mod : (magnitude count % 32).toNat = count.toInt.natAbs % 32 := by
  rw [UInt32.toNat_mod, toNat_magnitude]
  rfl

theorem toInt_shiftLeft :
    (shiftLeft a count).toInt = (a.toInt * 2 ^ (count.toInt.natAbs % 32)).bmod (2 ^ 32) := by
  have hplaces : count.toInt.natAbs % 32 % 32 = count.toInt.natAbs % 32 := Nat.mod_mod ..
  rw [shiftLeft, toInt_toInt32, UInt32.toNat_shiftLeft, toNat_magnitude_mod, hplaces,
    Nat.shiftLeft_eq, Int.natCast_emod, Int.emod_bmod, Int.natCast_mul, toNat_toUInt32,
    Int.emod_mul_bmod, Int.natCast_pow]
  rfl

theorem toInt_shiftRight : (a >>> (magnitude count % 32).toInt32).toInt =
    a.toInt / 2 ^ (count.toInt.natAbs % 32) := by
  -- the places are no more than 31, and so neither their sign nor the modulus matters
  have hmsb : (magnitude count % 32).toBitVec.msb = false := by
    rw [BitVec.msb_eq_false_iff_two_mul_lt]
    show 2 * (magnitude count % 32).toNat < 2 ^ 32
    rw [toNat_magnitude_mod]
    omega
  have hplaces : ((magnitude count % 32).toInt32.toBitVec.smod 32).toNat =
      count.toInt.natAbs % 32 := by
    show ((magnitude count % 32).toBitVec.smod 32).toNat = _
    rw [BitVec.smod_eq, hmsb]
    show (magnitude count % 32).toNat % 32 = _
    rw [toNat_magnitude_mod, Nat.mod_mod]
  show ((a >>> (magnitude count % 32).toInt32).toBitVec).toInt = _
  rw [Int32.toBitVec_shiftRight, BitVec.sshiftRight', BitVec.toInt_sshiftRight, hplaces,
    Int.shiftRight_eq_div_pow, Int.natCast_pow]
  rfl

theorem toInt_toUInt32_shiftRight : (a.toUInt32 >>> (magnitude count % 32)).toInt32.toInt =
    (a.toInt % (2 ^ 32 : Nat) / 2 ^ (count.toInt.natAbs % 32)).bmod (2 ^ 32) := by
  have hplaces : count.toInt.natAbs % 32 % 32 = count.toInt.natAbs % 32 := Nat.mod_mod ..
  rw [toInt_toInt32, UInt32.toNat_shiftRight, toNat_magnitude_mod, hplaces,
    Nat.shiftRight_eq_div_pow, Int.natCast_ediv, toNat_toUInt32, Int.natCast_pow]
  rfl

end Integer32

/-! ### Both directions -/

section

variable {n k : Int} (j : Nat)

theorem arithmeticallyShifted_natCast : arithmeticallyShifted n j = (n * 2 ^ j).bmod (2 ^ 32) := by
  rw [arithmeticallyShifted, if_pos (Int.natCast_nonneg j), Int.toNat_natCast]

theorem logicallyShifted_natCast : logicallyShifted n j = (n * 2 ^ j).bmod (2 ^ 32) :=
  arithmeticallyShifted_natCast j

/-- A word that is shifted by no places is as it was. -/
theorem arithmeticallyShifted_neg (hleast : -2 ^ 31 ≤ n) (hmost : n < 2 ^ 31) :
    arithmeticallyShifted n (-j) = n / 2 ^ j := by
  rw [arithmeticallyShifted]
  split
  · have hj : j = 0 := by omega
    rw [hj, Int.natCast_zero, Int.neg_zero, Int.toNat_zero, pow_zero, Int.mul_one, Int.ediv_one]
    exact Int.bmod_eq_of_le hleast (by omega)
  · rw [Int.neg_neg, Int.toNat_natCast]

theorem logicallyShifted_neg :
    logicallyShifted n (-j) = (n % (2 ^ 32 : Nat) / 2 ^ j).bmod (2 ^ 32) := by
  rw [logicallyShifted]
  split
  · have hj : j = 0 := by omega
    rw [hj, Int.natCast_zero, Int.neg_zero, Int.toNat_zero, pow_zero, Int.mul_one, Int.ediv_one,
      Int.emod_bmod]
  · rw [Int.neg_neg, Int.toNat_natCast]

/-- What a division by 32 toward zero leaves of a count has its sign. -/
theorem tmod_eq_of_nonneg (hk : 0 ≤ k) : k.tmod 32 = (k.natAbs % 32 : Nat) := by
  rw [Int.tmod_eq_emod_of_nonneg hk]
  omega

theorem tmod_eq_of_neg (hk : k < 0) : k.tmod 32 = -(k.natAbs % 32 : Nat) := by
  rw [← Int.neg_neg k, Int.neg_tmod, Int.tmod_eq_emod_of_nonneg (by omega)]
  omega

end

namespace Integer32

variable (a count : Int32)

theorem toInt_arithmeticShift :
    (arithmeticShift a count).toInt = arithmeticallyShifted a.toInt (count.toInt.tmod 32) := by
  rw [arithmeticShift]
  split
  · next hcount =>
    rw [tmod_eq_of_nonneg ((nonneg_iff count).mp hcount), arithmeticallyShifted_natCast,
      toInt_shiftLeft]
  · next hcount =>
    rw [tmod_eq_of_neg (not_le.mp (mt (nonneg_iff count).mpr hcount)),
      arithmeticallyShifted_neg _ a.le_toInt a.toInt_lt, toInt_shiftRight]

theorem toInt_logicalShift :
    (logicalShift a count).toInt = logicallyShifted a.toInt (count.toInt.tmod 32) := by
  rw [logicalShift]
  split
  · next hcount =>
    rw [tmod_eq_of_nonneg ((nonneg_iff count).mp hcount), logicallyShifted_natCast,
      toInt_shiftLeft]
  · next hcount =>
    rw [tmod_eq_of_neg (not_le.mp (mt (nonneg_iff count).mpr hcount)), logicallyShifted_neg,
      toInt_toUInt32_shiftRight]

end Integer32

open Integer32 (toFloat)

theorem isInteger32_toFloat (m : Int32) : IsInteger32 (toFloat m) m.toInt :=
  ⟨toInt?_toFloat m, m.le_toInt, m.toInt_lt⟩

/-- **`ASHIFT` and `LSHIFT` shift by what is left of the count** by a division by 32 toward zero. So
they shift by the count itself if its size is below 32. -/
theorem ashift_lshift {x y : Float} {n k : Int} (hx : IsInteger32 x n) (hy : IsInteger32 y k) :
    (IsInteger32 (MathFn.ashift.apply x y) (arithmeticallyShifted n (k.tmod 32)) ∧
      IsInteger32 (MathFn.lshift.apply x y) (logicallyShifted n (k.tmod 32))) ∧
    (|k| < 32 → IsInteger32 (MathFn.ashift.apply x y) (arithmeticallyShifted n k) ∧
      IsInteger32 (MathFn.lshift.apply x y) (logicallyShifted n k)) := by
  have hshifted : IsInteger32 (MathFn.ashift.apply x y) (arithmeticallyShifted n (k.tmod 32)) ∧
      IsInteger32 (MathFn.lshift.apply x y) (logicallyShifted n (k.tmod 32)) := by
    rw [← hx.toInt_ofFloat, ← hy.toInt_ofFloat, ← Integer32.toInt_arithmeticShift,
      ← Integer32.toInt_logicalShift]
    exact ⟨isInteger32_toFloat _, isInteger32_toFloat _⟩
  refine ⟨hshifted, fun hsmall => ?_⟩
  have hcount : k.tmod 32 = k := by
    obtain ⟨hlow, hhigh⟩ := abs_lt.mp hsmall
    rcases lt_or_ge k 0 with hk | hk
    · rw [tmod_eq_of_neg hk]
      omega
    · rw [tmod_eq_of_nonneg hk]
      omega
  rwa [hcount] at hshifted

/-- A count of 32 shifts nothing, although it should shift all bits out of the word. A count of -31
leaves the first bit, with or without copies of it in front. -/
theorem ashift_lshift_wordSize :
    (IsInteger32 (toFloat 1) 1 ∧ IsInteger32 (toFloat 32) 32 ∧
      IsInteger32 (MathFn.ashift.apply (toFloat 1) (toFloat 32)) 1 ∧
      IsInteger32 (MathFn.lshift.apply (toFloat 1) (toFloat 32)) 1 ∧
      arithmeticallyShifted 1 32 = 0 ∧ logicallyShifted 1 32 = 0) ∧
    (IsInteger32 (toFloat (-1)) (-1) ∧ IsInteger32 (toFloat (-31)) (-31) ∧
      IsInteger32 (MathFn.ashift.apply (toFloat (-1)) (toFloat (-31))) (-1) ∧
      IsInteger32 (MathFn.lshift.apply (toFloat (-1)) (toFloat (-31))) 1) := by
  have hone : IsInteger32 (toFloat 1) 1 := isInteger32_toFloat 1
  have hwordSize : IsInteger32 (toFloat 32) 32 := isInteger32_toFloat 32
  have hminusOne : IsInteger32 (toFloat (-1)) (-1) := isInteger32_toFloat (-1)
  have hright : IsInteger32 (toFloat (-31)) (-31) := isInteger32_toFloat (-31)
  obtain ⟨hleft, hleft'⟩ := (ashift_lshift hone hwordSize).1
  obtain ⟨hcopies, hzeros⟩ := (ashift_lshift hminusOne hright).2 (by decide)
  exact ⟨⟨hone, hwordSize, hleft, hleft', rfl, rfl⟩, hminusOne, hright, hcopies, hzeros⟩

end LogoEngine
