import LogoEngine.Arithmetic.Routine
import LogoEngine.Proofs.Decimal.Doubles

/-!
# The two integer divisions

`REMAINDER` and `MODULO` divide 32-bit integers, the one toward zero, the other toward minus infinity.
Each leaves what is smaller than the divisor and differs from the dividend by a multiple of it; they
differ in the sign, which is that of the dividend or that of the divisor. The arithmetic is that of
32-bit words, and no step of it leaves their range: a remainder is smaller than the divisor, and the
divisor is added only to a remainder of the other sign.

Main statement: `remainder_modulo`.
-/

namespace LogoEngine

/-- A double is exactly an integer of 32 bits. Both zeros are the integer zero. -/
structure IsInteger32 (x : Float) (n : Int) : Prop where
  reads : Decimal.toInt? x = some n
  least : -2 ^ 31 ≤ n
  most : n < 2 ^ 31

/-- What a division of `a` by `b` leaves, with the sign of `s`. -/
structure IsResidue (a b s r : Int) : Prop where
  smaller : |r| < |b|
  multiple : b ∣ a - r
  sign : r = 0 ∨ r.sign = s.sign

/-! ### Integers -/

section

variable {a b : Int}

theorem isResidue_tmod (hb : b ≠ 0) : IsResidue a b a (a.tmod b) where
  smaller := by
    have hlt : (a.tmod b).natAbs < b.natAbs := by
      rw [Int.natAbs_tmod]
      exact Nat.mod_lt _ (Int.natAbs_pos.mpr hb)
    rw [Int.abs_eq_natAbs, Int.abs_eq_natAbs]
    exact Int.ofNat_lt.mpr hlt
  multiple := by
    have hsplit := Int.tmod_add_tdiv_mul a b
    exact ⟨a.tdiv b, by rw [Int.mul_comm b]; omega⟩
  sign := by
    rw [or_iff_not_imp_left]
    intro hne
    rcases lt_trichotomy a 0 with ha | rfl | ha
    · have hle : a.tmod b ≤ 0 := by
        have hneg := Int.tmod_nonneg b (show 0 ≤ -a by omega)
        rw [Int.neg_tmod] at hneg
        omega
      rw [Int.sign_eq_neg_one_of_neg ha, Int.sign_eq_neg_one_of_neg (by omega)]
    · exact absurd (Int.zero_tmod b) hne
    · have hle : 0 ≤ a.tmod b := Int.tmod_nonneg b ha.le
      rw [Int.sign_eq_one_of_pos ha, Int.sign_eq_one_of_pos (by omega)]

/-- A remainder whose sign is not that of the divisor. -/
def NeedsDivisor (r b : Int) : Prop :=
  r ≠ 0 ∧ (r < 0 ↔ ¬ b < 0)

instance (r b : Int) : Decidable (NeedsDivisor r b) :=
  inferInstanceAs (Decidable (r ≠ 0 ∧ _))

namespace IsResidue

variable {s r : Int}

/-- Adding the divisor to a remainder of the other sign gives the remainder of its own sign. -/
theorem add_divisor (h : IsResidue a b s r) (hneeds : NeedsDivisor r b) :
    IsResidue a b b (r + b) := by
  obtain ⟨hne, hsigns⟩ := hneeds
  have hmultiple : b ∣ a - (r + b) := by
    rw [← Int.sub_sub]
    exact Int.dvd_sub h.multiple (Int.dvd_refl b)
  have hsmaller := abs_lt.mp h.smaller
  rcases lt_or_ge b 0 with hb | hb
  · rw [abs_of_neg hb] at hsmaller
    have hr : 0 < r := by omega
    refine ⟨?_, hmultiple, .inr ?_⟩
    · rw [abs_of_neg hb, abs_of_neg (by omega)]
      omega
    · rw [Int.sign_eq_neg_one_of_neg hb, Int.sign_eq_neg_one_of_neg (by omega)]
  · rw [abs_of_nonneg hb] at hsmaller
    have hr : r < 0 := by omega
    refine ⟨?_, hmultiple, .inr ?_⟩
    · rw [abs_of_nonneg hb, abs_of_pos (by omega)]
      omega
    · rw [Int.sign_eq_one_of_pos (by omega), Int.sign_eq_one_of_pos (by omega)]

/-- A remainder that does not need the divisor has its sign already. -/
theorem of_not_needsDivisor (h : IsResidue a b s r) (hneeds : ¬ NeedsDivisor r b) :
    IsResidue a b b r := by
  refine ⟨h.smaller, h.multiple, ?_⟩
  have hsmaller := abs_lt.mp h.smaller
  rw [or_iff_not_imp_left]
  intro hne
  have hsame : r < 0 ↔ b < 0 := by
    have := not_and.mp hneeds hne
    tauto
  rcases lt_or_ge b 0 with hb | hb
  · rw [Int.sign_eq_neg_one_of_neg hb, Int.sign_eq_neg_one_of_neg (hsame.mpr hb)]
  · have hpos : 0 < b := by
      rw [abs_of_nonneg hb] at hsmaller
      omega
    rw [Int.sign_eq_one_of_pos hpos, Int.sign_eq_one_of_pos (by omega)]

end IsResidue

end

/-! ### Words of 32 bits -/

namespace Integer32

theorem is_iff_toInt? {n : Int32} {x : Float} : Is n x ↔ Decimal.toInt? x = some n.toInt := by
  have hlow := n.le_toInt
  have hhigh := n.toInt_lt
  rw [is_iff, Decimal.toInt?_eq_some_iff (by omega) (by omega)]

end Integer32

open Integer32 (ofFloat toFloat)

/-- The doubles that survive the round trip are those that are integers of 32 bits. -/
theorem isInt32_iff_isInteger32 {x : Float} : isInt32 x = true ↔ ∃ n, IsInteger32 x n := by
  rw [isInt32_iff]
  constructor
  · rintro ⟨n, hn⟩
    exact ⟨n.toInt, Integer32.is_iff_toInt?.mp hn, n.le_toInt, n.toInt_lt⟩
  · rintro ⟨n, hreads, hleast, hmost⟩
    refine ⟨.ofInt n, Integer32.is_iff_toInt?.mpr ?_⟩
    rwa [Int32.toInt_ofInt_of_le hleast hmost]

theorem IsInteger32.toInt_ofFloat {x : Float} {n : Int} (h : IsInteger32 x n) :
    (ofFloat x).toInt = n := by
  have hn : (Int32.ofInt n).toInt = n := Int32.toInt_ofInt_of_le h.least h.most
  have his : Integer32.Is (Int32.ofInt n) x := Integer32.is_iff_toInt?.mpr (hn.symm ▸ h.reads)
  rw [his.ofFloat_eq, hn]

theorem toInt?_toFloat (n : Int32) : Decimal.toInt? (toFloat n) = some n.toInt :=
  Integer32.is_iff_toInt?.mp (Integer32.is_toFloat n)

/-- The divisor is added only where the sum stays in range. -/
theorem toInt_add_of_needsDivisor {r b : Int32} {a s : Int} (h : IsResidue a b.toInt s r.toInt)
    (hneeds : NeedsDivisor r.toInt b.toInt) : (r + b).toInt = r.toInt + b.toInt := by
  have hsmaller := abs_lt.mp (h.add_divisor hneeds).smaller
  have hleast := b.le_toInt
  have hmost := b.toInt_lt
  rw [Int32.toInt_add]
  rcases abs_cases b.toInt with ⟨habs, hb⟩ | ⟨habs, hb⟩
  · exact Int.bmod_eq_of_le (by omega) (by omega)
  · exact Int.bmod_eq_of_le (by omega) (by omega)

/-- The test on the words is the one on the integers. -/
theorem needsDivisor_iff {r b : Int32} :
    r ≠ 0 ∧ (r < 0) ≠ (b < 0) ↔ NeedsDivisor r.toInt b.toInt := by
  have hzero : r ≠ 0 ↔ r.toInt ≠ 0 := by rw [Ne, ← Int32.toInt_inj, Int32.toInt_zero]
  rw [NeedsDivisor, hzero, Int32.lt_iff_toInt_lt, Int32.lt_iff_toInt_lt, Int32.toInt_zero]
  refine and_congr_right fun _ => ?_
  rw [ne_eq, eq_iff_iff]
  tauto

theorem toInt_modulo {a b : Int32} (hb : b.toInt ≠ 0) :
    (Integer32.modulo a b).toInt =
      if NeedsDivisor (a.toInt.tmod b.toInt) b.toInt then a.toInt.tmod b.toInt + b.toInt
      else a.toInt.tmod b.toInt := by
  have hresidue := isResidue_tmod (a := a.toInt) hb
  rw [← Int32.toInt_mod] at hresidue ⊢
  simp only [Integer32.modulo, needsDivisor_iff]
  split
  · next hneeds => exact toInt_add_of_needsDivisor hresidue hneeds
  · rfl

/-! ### The two divisions -/

/-- **`REMAINDER` and `MODULO` are the two integer divisions.** The check accepts a double exactly if
it is an integer of 32 bits. Of two such doubles, the divisor not zero, `REMAINDER` gives what is left
with the sign of the dividend and `MODULO` what is left with the sign of the divisor. No step wraps
around: the words are the integers, their remainder is that of the integers, and so is the sum where
the divisor is added. -/
theorem remainder_modulo :
    (∀ z, isInt32 z = true ↔ ∃ n, IsInteger32 z n) ∧
    ∀ {x y : Float} {a b : Int}, IsInteger32 x a → IsInteger32 y b → b ≠ 0 →
      (isInt32 x = true ∧ isInt32 y = true) ∧
      (∃ r, IsInteger32 (MathFn.remainder.apply x y) r ∧ IsResidue a b a r) ∧
      (∃ m, IsInteger32 (MathFn.modulo.apply x y) m ∧ IsResidue a b b m) ∧
      let dividend := ofFloat x
      let divisor := ofFloat y
      let rest := dividend % divisor
      dividend.toInt = a ∧ divisor.toInt = b ∧ rest.toInt = a.tmod b ∧
        (rest ≠ 0 ∧ (rest < 0) ≠ (divisor < 0) →
          (rest + divisor).toInt = rest.toInt + divisor.toInt) := by
  refine ⟨fun z => isInt32_iff_isInteger32, fun {x y a b} hx hy hb => ?_⟩
  have hword : ∀ n : Int32, IsInteger32 (toFloat n) n.toInt := fun n =>
    ⟨toInt?_toFloat n, n.le_toInt, n.toInt_lt⟩
  have ha := hx.toInt_ofFloat
  have hb' := hy.toInt_ofFloat
  have hrest : (ofFloat x % ofFloat y).toInt = a.tmod b := by rw [Int32.toInt_mod, ha, hb']
  have hresidue := isResidue_tmod (a := a) hb
  refine ⟨⟨isInt32_iff_isInteger32.mpr ⟨a, hx⟩, isInt32_iff_isInteger32.mpr ⟨b, hy⟩⟩,
    ⟨_, hword _, ?_⟩, ⟨_, hword _, ?_⟩, ha, hb', hrest, fun hneeds => ?_⟩
  · rw [Integer32.remainder, hrest]
    exact hresidue
  · rw [toInt_modulo (hb'.symm ▸ hb), ha, hb']
    split
    · next hneeds => exact hresidue.add_divisor hneeds
    · next hneeds => exact hresidue.of_not_needsDivisor hneeds
  · refine toInt_add_of_needsDivisor (a := a) (s := a) ?_ (needsDivisor_iff.mp hneeds)
    rwa [hrest, hb']

/-- The least integer divided by minus one leaves nothing. -/
theorem remainder_modulo_least :
    IsInteger32 (toFloat (-2147483648)) (-2147483648) ∧ IsInteger32 (toFloat (-1)) (-1) ∧
      ∃ r, IsInteger32 (MathFn.remainder.apply (toFloat (-2147483648)) (toFloat (-1))) r ∧
        IsResidue (-2147483648) (-1) (-2147483648) r := by
  have hleast : IsInteger32 (toFloat (-2147483648)) (-2147483648) :=
    ⟨toInt?_toFloat _, by decide, by decide⟩
  have hone : IsInteger32 (toFloat (-1)) (-1) := ⟨toInt?_toFloat _, by decide, by decide⟩
  exact ⟨hleast, hone, (remainder_modulo.2 hleast hone (by decide)).2.1⟩

end LogoEngine
