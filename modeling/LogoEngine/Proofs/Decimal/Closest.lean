import LogoEngine.Proofs.Decimal.Values

/-!
# The closest double

The room of a double is made of the numbers that no other double is closer to. A number between two
neighbours that are as close is in the room of the one whose mantissa is even. So the double in
whose room a number is can be told without its room: it is the only closest one, if of two as close
the even one counts.

Main statements: `InRoom.abs_sub_le` and `InRoom.parity_of_tie`; `HasParts.isClosest` and
`HasParts.eq_of_isClosest`.
-/

namespace LogoEngine

open Float.Model Float.Model.UnpackedFloat

/-! ### Neighbours -/

section

variable {m m' : Nat} {e e' : Int} {q : ℚ}

theorem Fits.unique (h : Fits m e) (h' : Fits m' e') (heq : (m * 2 ^ e : ℚ) = m' * 2 ^ e') :
    m = m' ∧ e = e' :=
  (InRoom.self m e).unique h (heq ▸ InRoom.self m' e') h'

/-- Counted in places of a double, another one with at least its exponent is whole. -/
theorem exists_natCast_eq_div (k : Nat) (hle : e ≤ e') :
    ∃ n : Nat, (k * 2 ^ e' / 2 ^ e : ℚ) = n := by
  obtain ⟨j, hj⟩ := Int.eq_ofNat_of_zero_le (sub_nonneg.mpr hle)
  refine ⟨k * 2 ^ j, ?_⟩
  rw [mul_div_assoc, ← zpow_sub₀ two_ne_zero, hj, zpow_natCast]
  push_cast
  rfl

/-- One with a smaller exponent is below all that have all their bits. -/
theorem Fits.div_le (h' : Fits m' e') (hlt : e' < e) :
    (m' * 2 ^ e' / 2 ^ e : ℚ) ≤ 2 ^ 52 - 1 / 2 := by
  have hmost : (m' : ℚ) + 1 ≤ 2 ^ 53 := by exact_mod_cast h'.lt
  have hhalf : (2 : ℚ) ^ (e' - e) ≤ 1 / 2 := by
    calc (2 : ℚ) ^ (e' - e) ≤ 2 ^ (-1 : Int) := zpow_le_zpow_right₀ one_le_two (by omega)
      _ = 1 / 2 := by norm_num
  have hpos : (0 : ℚ) ≤ m' := Nat.cast_nonneg m'
  rw [mul_div_assoc, ← zpow_sub₀ two_ne_zero]
  nlinarith

/-- The next double above is a place away. -/
theorem Fits.add_one_le_div (h : Fits m e) (h' : Fits m' e') (hlt : (m : ℚ) < m' * 2 ^ e' / 2 ^ e) :
    (m + 1 : ℚ) ≤ m' * 2 ^ e' / 2 ^ e := by
  rcases le_or_gt e e' with he | he
  · obtain ⟨k, hk⟩ := exists_natCast_eq_div m' he
    rw [hk] at hlt ⊢
    exact_mod_cast hlt
  · have hleast := h'.least
    have hfull : (2 : ℚ) ^ 52 ≤ m := by exact_mod_cast h.full.resolve_right (by omega)
    linarith [h'.div_le he]

/-- The next double below is as many halves of a place away as the room reaches quarters. -/
theorem Fits.div_le_sub (h : Fits m e) (h' : Fits m' e') (hlt : (m' * 2 ^ e' / 2 ^ e : ℚ) < m) :
    (m' * 2 ^ e' / 2 ^ e : ℚ) ≤ m - Decimal.roomBelow m e / 2 := by
  have hroom : (Decimal.roomBelow m e : ℚ) ≤ 2 := by exact_mod_cast (roomBelow_bounds m e).2
  rcases le_or_gt e e' with he | he
  · obtain ⟨k, hk⟩ := exists_natCast_eq_div m' he
    rw [hk] at hlt ⊢
    have hle : (k : ℚ) + 1 ≤ m := by exact_mod_cast hlt
    linarith
  · have hleast := h'.least
    have hfull : 2 ^ 52 ≤ m := h.full.resolve_right (by omega)
    have hbelow := h'.div_le he
    rcases hfull.eq_or_lt with rfl | hnext
    · rw [roomBelow_eq_one (by omega)]
      push_cast
      exact hbelow
    · have hnext : (2 : ℚ) ^ 52 + 1 ≤ m := by exact_mod_cast hnext
      linarith

/-! ### Rooms -/

theorem abs_sub_eq_mul (y : ℚ) (e : Int) : |y - q| = |y / 2 ^ e - q / 2 ^ e| * 2 ^ e := by
  have htwo : (0 : ℚ) < 2 ^ e := zpow_pos two_pos e
  rw [← sub_div, abs_div, abs_of_pos htwo, div_mul_cancel₀ _ htwo.ne']

/-- **No double is closer** to a number than the one in whose room it is. -/
theorem InRoom.abs_sub_le (hroom : InRoom m e q) (h : Fits m e) (h' : Fits m' e') :
    |m * 2 ^ e - q| ≤ |m' * 2 ^ e' - q| := by
  have htwo : (0 : ℚ) < 2 ^ e := zpow_pos two_pos e
  rw [abs_sub_eq_mul (m * 2 ^ e) e, abs_sub_eq_mul (m' * 2 ^ e') e,
    mul_div_cancel_right₀ _ htwo.ne']
  refine mul_le_mul_of_nonneg_right ?_ htwo.le
  have hlow := hroom.low
  have hhigh := hroom.high
  generalize q / 2 ^ e = y at hlow hhigh
  rcases lt_trichotomy (m : ℚ) (m' * 2 ^ e' / 2 ^ e) with hlt | heq | hlt
  · have hnext := h.add_one_le_div h' hlt
    rw [abs_of_nonneg (by linarith : 0 ≤ (m' * 2 ^ e' / 2 ^ e : ℚ) - y), abs_le]
    constructor <;> linarith
  · rw [← heq]
  · have hnext := h.div_le_sub h' hlt
    have hpos : (0 : ℚ) ≤ Decimal.roomBelow m e := Nat.cast_nonneg _
    rw [abs_of_nonpos (by linarith : (m' * 2 ^ e' / 2 ^ e : ℚ) - y ≤ 0), abs_le]
    constructor <;> linarith

/-- Of a double and the next one above, one mantissa is odd. -/
theorem Fits.odd_of_next (h : Fits m e) (h' : Fits m' e') (heven : m % 2 = 0)
    (hnext : (m' * 2 ^ e' / 2 ^ e : ℚ) = m + 1) : m' % 2 = 1 := by
  have hlt := h.lt
  have hfits : Fits (m + 1) e := ⟨by omega, h.least, h.full.imp_left fun hfull => by omega⟩
  have hvalue : (m' * 2 ^ e' : ℚ) = (m + 1 : Nat) * 2 ^ e := by
    rw [← div_eq_iff (zpow_ne_zero e two_ne_zero), hnext, Nat.cast_succ]
  obtain ⟨rfl, -⟩ := h'.unique hfits hvalue
  omega

/-- So it is with the next one below. Below a power of two this is the greatest of those that lie
twice as dense. -/
theorem Fits.odd_of_previous (h : Fits m e) (h' : Fits m' e') (heven : m % 2 = 0)
    (hprevious : (m' * 2 ^ e' / 2 ^ e : ℚ) = m - Decimal.roomBelow m e / 2) : m' % 2 = 1 := by
  have hlt := h.lt
  have hleast := h.least
  rw [div_eq_iff (zpow_ne_zero e two_ne_zero)] at hprevious
  rcases roomBelow_cases m e with ⟨hroom, rfl, he⟩ | ⟨hroom, hpower⟩
  · have hfits : Fits (2 ^ 53 - 1) (e - 1) := ⟨by omega, by omega, .inl (by omega)⟩
    have hvalue : (m' * 2 ^ e' : ℚ) = (2 ^ 53 - 1 : Nat) * 2 ^ (e - 1) := by
      rw [hprevious, hroom, zpow_sub_one₀ two_ne_zero]
      norm_num
      ring
    obtain ⟨rfl, -⟩ := h'.unique hfits hvalue
    decide
  · have hpos : 0 < m := by
      rw [Nat.pos_iff_ne_zero]
      rintro rfl
      have hnonneg : (0 : ℚ) ≤ m' * 2 ^ e' := by positivity
      rw [hprevious, hroom] at hnonneg
      have htwo : (0 : ℚ) < 2 ^ e := zpow_pos two_pos e
      norm_num at hnonneg
      linarith
    have hfits : Fits (m - 1) e := ⟨by omega, hleast, by have := h.full; omega⟩
    have hvalue : (m' * 2 ^ e' : ℚ) = (m - 1 : Nat) * 2 ^ e := by
      rw [hprevious, hroom, Nat.cast_sub hpos]
      norm_num
    obtain ⟨rfl, -⟩ := h'.unique hfits hvalue
    omega

/-- **If another one is as close**, the mantissa of the double is even, and that of the other odd.
-/
theorem InRoom.parity_of_tie (hroom : InRoom m e q) (h : Fits m e) (h' : Fits m' e')
    (hne : (m' * 2 ^ e' : ℚ) ≠ m * 2 ^ e) (htie : |m' * 2 ^ e' - q| = |m * 2 ^ e - q|) :
    m % 2 = 0 ∧ m' % 2 = 1 := by
  have htwo : (2 : ℚ) ^ e ≠ 0 := zpow_ne_zero e two_ne_zero
  rw [abs_sub_eq_mul (m * 2 ^ e) e, abs_sub_eq_mul (m' * 2 ^ e') e, mul_div_cancel_right₀ _ htwo,
    mul_left_inj' htwo] at htie
  have hlow := hroom.low
  have hhigh := hroom.high
  have hodd : ∀ {p : Prop}, (m % 2 = 1 → p) → ¬ p → m % 2 = 0 := fun himp hp => by
    have := mt himp hp
    omega
  generalize hw : (m' * 2 ^ e' / 2 ^ e : ℚ) = w at htie
  have hlow_lt := hroom.low_lt
  have hhigh_lt := hroom.high_lt
  generalize q / 2 ^ e = y at hlow hhigh hlow_lt hhigh_lt htie
  rcases lt_trichotomy (m : ℚ) w with hlt | heq | hlt
  · -- the number is half-way to the next double
    have hnext : (m + 1 : ℚ) ≤ w := hw ▸ h.add_one_le_div h' (hw.symm ▸ hlt)
    have hy : 2 * y = m + w := by
      rw [abs_of_nonneg (by linarith : 0 ≤ w - y)] at htie
      rcases abs_cases ((m : ℚ) - y) with ⟨habs, -⟩ | ⟨habs, -⟩ <;> linarith
    have heven : m % 2 = 0 := hodd hhigh_lt (by linarith)
    refine ⟨heven, h.odd_of_next h' heven ?_⟩
    rw [hw]
    linarith
  · exact absurd ((div_eq_iff htwo).mp (hw.trans heq.symm)) hne
  · have hprevious : w ≤ m - Decimal.roomBelow m e / 2 := hw ▸ h.div_le_sub h' (hw.symm ▸ hlt)
    have hpos : (1 : ℚ) ≤ Decimal.roomBelow m e := by exact_mod_cast (roomBelow_bounds m e).1
    have hy : 2 * y = m + w := by
      rw [abs_of_nonpos (by linarith : w - y ≤ 0)] at htie
      rcases abs_cases ((m : ℚ) - y) with ⟨habs, -⟩ | ⟨habs, -⟩ <;> linarith
    have heven : m % 2 = 0 := hodd hlow_lt (by linarith)
    refine ⟨heven, h.odd_of_previous h' heven ?_⟩
    rw [hw]
    linarith

end

/-! ### Doubles -/

/-- Whether a double has a minus sign. -/
def isNegative (x : Float) : Bool :=
  match Decimal.Binary.ofFloat x with
  | .finite negative _ _ | .infinite negative => negative
  | .notANumber => false

/-- The mantissa of a finite double. -/
def mantissaOf (x : Float) : Nat :=
  match Decimal.Binary.ofFloat x with
  | .finite _ mantissa _ => mantissa
  | .infinite _ | .notANumber => 0

/-- A finite double is **closest** to a number if none is closer, and if none is as close unless its
own mantissa is even. -/
structure IsClosest (q : ℚ) (x : Float) : Prop where
  isFinite : x.isFinite = true
  le : ∀ y : Float, y.isFinite = true → |doubleValue x - q| ≤ |doubleValue y - q|
  even : ∀ y : Float, y.isFinite = true → doubleValue y ≠ doubleValue x →
    |doubleValue y - q| = |doubleValue x - q| → mantissaOf x % 2 = 0

/-- Sign, mantissa and exponent of a finite double. -/
structure HasParts (x : Float) (s : Sign) (m : Nat) (e : Int) : Prop where
  isFinite : x.isFinite = true
  fits : Fits m e
  most : e ≤ 971
  fields : Decimal.Binary.ofFloat x = .finite (Decimal.isMinus s) m e
  value : doubleValue x = withSign s (m * 2 ^ e)

section

variable {x y : Float} {s t : Sign} {m : Nat} {e : Int} {q : ℚ}

theorem hasParts_of_zero (hx : x.toModel.unpack = .zero s) : HasParts x s 0 (-1074) where
  isFinite := by
    show x.toModel.unpack.isFinite = true
    rw [hx]
    rfl
  fits := ⟨by decide, le_rfl, .inr rfl⟩
  most := by decide
  fields := by
    rw [Decimal.Binary.ofFloat_eq, hx]
    rfl
  value := by
    rw [doubleValue, hx, unpackedValue]
    cases s <;> simp [withSign]

theorem hasParts_of_finite (h : IsMagnitude m e) (hx : x.toModel.unpack = .finite s m e h.pos) :
    HasParts x s m e where
  isFinite := by
    show x.toModel.unpack.isFinite = true
    rw [hx]
    rfl
  fits := h.fits
  most := h.most
  fields := by
    rw [Decimal.Binary.ofFloat_eq, hx]
    rfl
  value := by
    rw [doubleValue, hx]
    rfl

theorem exists_hasParts (hx : x.isFinite = true) : ∃ s m e, HasParts x s m e := by
  rcases unpack_cases hx with ⟨s, hu⟩ | ⟨s, m, e, h, hu⟩
  · exact ⟨s, 0, -1074, hasParts_of_zero hu⟩
  · exact ⟨s, m, e, hasParts_of_finite h hu⟩

namespace HasParts

theorem isNegative_eq (h : HasParts x s m e) : isNegative x = Decimal.isMinus s := by
  rw [isNegative, h.fields]

theorem mantissaOf_eq (h : HasParts x s m e) : mantissaOf x = m := by
  rw [mantissaOf, h.fields]

end HasParts

theorem isMinus_inj : Decimal.isMinus s = Decimal.isMinus t ↔ s = t :=
  ⟨fun h => by rw [← signOf_isMinus s, h, signOf_isMinus], congrArg Decimal.isMinus⟩

/-- A double that is not zero is determined by its number. -/
theorem eq_of_unpack_finite (h : IsMagnitude m e) (hx : x.toModel.unpack = .finite s m e h.pos)
    (hvalue : doubleValue x = doubleValue y) : x = y := by
  have hroom := (isRounded_doubleValue x m e h s).mp hx
  rw [hvalue] at hroom
  exact eq_of_unpack_eq (hx.trans ((isRounded_doubleValue y m e h s).mpr hroom).symm)

/-- Sign and number determine a finite double. -/
theorem eq_of_doubleValue_eq (hx : x.isFinite = true) (hy : y.isFinite = true)
    (hvalue : doubleValue x = doubleValue y) (hsign : isNegative x = isNegative y) : x = y := by
  rcases unpack_cases hx with ⟨s, hu⟩ | ⟨s, m, e, h, hu⟩
  · rcases unpack_cases hy with ⟨t, hv⟩ | ⟨t, m, e, h, hv⟩
    · rw [(hasParts_of_zero hu).isNegative_eq, (hasParts_of_zero hv).isNegative_eq,
        isMinus_inj] at hsign
      exact eq_of_unpack_eq (hu.trans (hsign ▸ hv.symm))
    · exact (eq_of_unpack_finite h hv hvalue.symm).symm
  · exact eq_of_unpack_finite h hu hvalue

theorem withSign_sub (s : Sign) (a b : ℚ) : |withSign s a - withSign s b| = |a - b| := by
  cases s
  · rw [withSign, withSign, neg_sub_neg, abs_sub_comm]
  · rfl

theorem abs_withSign {a : ℚ} (s : Sign) (ha : 0 ≤ a) : |withSign s a| = a := by
  cases s
  · rw [withSign, abs_neg, abs_of_nonneg ha]
  · exact abs_of_nonneg ha

theorem abs_withSign_sub_of_ne {a b : ℚ} (hne : s ≠ t) (ha : 0 ≤ a) (hb : 0 ≤ b) :
    |withSign s a - withSign t b| = a + b := by
  cases s <;> cases t
  · exact absurd rfl hne
  · rw [withSign, withSign, abs_of_nonpos (by linarith)]
    ring
  · rw [withSign, withSign, abs_of_nonneg (by linarith)]
    ring
  · exact absurd rfl hne

/-- A double on the other side of zero is farther than zero is. So among those with the sign of the
number is one that is as close as it, and if it is no closer it is the same. -/
theorem HasParts.exists_abs_sub_le (h : HasParts y t m e) (s : Sign) (hq : 0 ≤ q) :
    ∃ m' e', Fits m' e' ∧ |m' * 2 ^ e' - q| ≤ |doubleValue y - withSign s q| ∧
      (|m' * 2 ^ e' - q| = |doubleValue y - withSign s q| →
        doubleValue y = withSign s (m' * 2 ^ e')) := by
  rw [h.value]
  by_cases hst : t = s
  · subst hst
    exact ⟨m, e, h.fits, (withSign_sub ..).ge, fun _ => rfl⟩
  · have hpos : (0 : ℚ) ≤ m * 2 ^ e := by positivity
    refine ⟨0, -1074, ⟨by decide, le_rfl, .inr rfl⟩, ?_, ?_⟩ <;>
      rw [abs_withSign_sub_of_ne hst hpos hq, Nat.cast_zero, zero_mul, zero_sub, abs_neg,
        abs_of_nonneg hq]
    · linarith
    · intro htie
      have hzero : (m * 2 ^ e : ℚ) = 0 := by linarith
      rw [hzero]
      cases s <;> cases t <;> simp [withSign]

/-- The double in whose room a number is is the closest one. -/
theorem HasParts.isClosest (h : HasParts x s m e) (hroom : InRoom m e q) (hq : 0 ≤ q) :
    IsClosest (withSign s q) x := by
  have hself : |doubleValue x - withSign s q| = |m * 2 ^ e - q| := by rw [h.value, withSign_sub]
  refine ⟨h.isFinite, fun y hy => ?_, fun y hy hne htie => ?_⟩
  · obtain ⟨t, m', e', hparts⟩ := exists_hasParts hy
    obtain ⟨m', e', hfits, hle, -⟩ := hparts.exists_abs_sub_le s hq
    rw [hself]
    exact (hroom.abs_sub_le h.fits hfits).trans hle
  · obtain ⟨t, m', e', hparts⟩ := exists_hasParts hy
    obtain ⟨m', e', hfits, hle, hsame⟩ := hparts.exists_abs_sub_le s hq
    rw [hself] at htie
    have hle' := hroom.abs_sub_le h.fits hfits
    have heq := hsame (hle.antisymm (htie ▸ hle'))
    rw [heq, withSign_sub] at htie
    have hne' : (m' * 2 ^ e' : ℚ) ≠ m * 2 ^ e := fun hvalue => hne (by rw [heq, h.value, hvalue])
    rw [h.mantissaOf_eq]
    exact (hroom.parity_of_tie h.fits hfits hne' htie).1

/-- There is no other closest one with its sign. -/
theorem HasParts.eq_of_isClosest (h : HasParts x s m e) (hroom : InRoom m e q) (hq : 0 ≤ q)
    (hy : IsClosest (withSign s q) y) (hsign : isNegative y = Decimal.isMinus s) : y = x := by
  obtain ⟨t, m', e', hparts⟩ := exists_hasParts hy.isFinite
  obtain rfl : t = s := isMinus_inj.mp (hparts.isNegative_eq.symm.trans hsign)
  refine eq_of_doubleValue_eq hy.isFinite h.isFinite ?_ (hsign.trans h.isNegative_eq.symm)
  by_contra hne
  have htie := (hy.le x h.isFinite).antisymm ((h.isClosest hroom hq).le y hy.isFinite)
  have heven := hy.even x h.isFinite (Ne.symm hne) htie.symm
  rw [h.value, hparts.value] at hne htie
  rw [withSign_sub, withSign_sub] at htie
  rw [hparts.mantissaOf_eq] at heven
  have hodd := (hroom.parity_of_tie h.fits hparts.fits (fun hvalue => hne (by rw [hvalue])) htie).2
  omega

end

end LogoEngine
