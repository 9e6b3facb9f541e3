import LogoEngine.Decimal.Binary
import LogoEngine.Proofs.Arithmetic.Whole
import Mathlib

/-!
# What doubles stand for

A finite double that is not zero is a sign, a mantissa below 2 to the power of 53 and an exponent,
and there is one way only to write it so: the mantissa has all its 53 bits unless the exponent is the
least one (`IsMagnitude`). The bits of a double hold just that (`unpack_pack`, `pack_unpack`), and it
is what `Binary.ofFloat` reads from them.

Main statements: `isDouble_unpack`, the numbers that doubles are; `Binary.ofFloat_eq`;
`Decimal.toInt?_eq_some_iff`, the doubles that are small whole numbers.
-/

namespace LogoEngine

open Float.Model Float.Model.UnpackedFloat

/-! ### Mantissa and exponent -/

/-- Mantissa and exponent of a finite double that is not zero. -/
structure IsMagnitude (m : Nat) (e : Int) : Prop where
  pos : 0 < m
  lt : m < 2 ^ 53
  least : -1074 ≤ e
  most : e ≤ 971
  full : 2 ^ 52 ≤ m ∨ e = -1074

/-- An unpacked number is one that a double can be. -/
inductive IsDouble : UnpackedFloat → Prop
  | notANumber : IsDouble .notANumber
  | infinity (s : Sign) : IsDouble (.infinity s)
  | zero (s : Sign) : IsDouble (.zero s)
  | finite (s : Sign) {m : Nat} {e : Int} (h : IsMagnitude m e) : IsDouble (.finite s m e h.pos)

/-! ### Bits -/

section

variable (b : BitVec 64)

theorem toNat_unpackMantissa : (@unpackMantissa .binary64 b).toNat = b.toNat % 2 ^ 52 := by
  simp only [unpackMantissa, BitVec.toNat_cast, BitVec.extractLsb_toNat, Nat.shiftRight_zero]

theorem toNat_unpackExponent :
    (@unpackExponent .binary64 b).toNat = b.toNat / 2 ^ 52 % 2 ^ 11 := by
  simp only [unpackExponent, BitVec.toNat_cast, BitVec.extractLsb_toNat,
    Nat.shiftRight_eq_div_pow]

theorem toNat_unpackSign : (@unpackSign .binary64 b).toNat = b.toNat / 2 ^ 63 := by
  have hlt : b.toNat < 2 ^ 64 := b.isLt
  simp only [unpackSign, BitVec.toNat_cast, BitVec.extractLsb_toNat,
    Nat.shiftRight_eq_div_pow]
  omega

/-- Sign, exponent and mantissa together are the bits. -/
theorem packComponents_unpack :
    packComponents .binary64 (Sign.ofBitVec (@unpackSign .binary64 b)) (@unpackExponent .binary64 b)
      (@unpackMantissa .binary64 b) = b := by
  have hsign : ∀ c : BitVec 1, (Sign.ofBitVec c).toBitVec = c := by decide
  have hlt : b.toNat < 2 ^ 64 := b.isLt
  apply BitVec.eq_of_toNat_eq
  rw [packComponents, hsign, BitVec.toNat_append, BitVec.toNat_append,
    ← Nat.shiftLeft_add_eq_or_of_lt (BitVec.isLt _), ← Nat.shiftLeft_add_eq_or_of_lt (BitVec.isLt _),
    Nat.shiftLeft_eq, Nat.shiftLeft_eq, toNat_unpackSign, toNat_unpackExponent,
    toNat_unpackMantissa]
  show (b.toNat / 2 ^ 63 * 2 ^ 11 + b.toNat / 2 ^ 52 % 2 ^ 11) * 2 ^ 52 + b.toNat % 2 ^ 52 = b.toNat
  omega

theorem toNat_implicit_append (m : BitVec 52) : (1#1 ++ m).toNat = 2 ^ 52 + m.toNat := by
  rw [BitVec.toNat_append, ← Nat.shiftLeft_add_eq_or_of_lt m.isLt, Nat.shiftLeft_eq]
  rfl

theorem toNat_ofNat_of_lt {k w : Nat} (hk : k < 2 ^ w) : (BitVec.ofNat w k).toNat = k := by
  rw [BitVec.toNat_ofNat, Nat.mod_eq_of_lt hk]

theorem exponentBias_binary64 : Format.binary64.exponentBias = 1023 := by decide

theorem mantissaBits_binary64 : Format.binary64.mantissaBits = 53 := by decide

end

/-! ### Packing -/

namespace IsMagnitude

variable {m : Nat} {e : Int}

/-- The bits of a number whose mantissa has all its bits. -/
theorem pack_normal (h : IsMagnitude m e) (hnormal : 2 ^ 52 ≤ m) (s : Sign) :
    UnpackedFloat.pack .binary64 (.finite s m e h.pos) =
      packComponents .binary64 s (BitVec.ofNat 11 (e + 1075).toNat) (BitVec.ofNat 52 m) := by
  have hlog : m.log2 = 52 := (Nat.log2_eq_iff (Nat.ne_of_gt h.pos)).mpr ⟨hnormal, h.lt⟩
  have hbiased : (e + (1023 : Nat) + (52 : Nat)).toNat = (e + 1075).toNat := by omega
  have hmost := h.most
  rw [UnpackedFloat.pack]
  simp only [exponentBias_binary64, mantissaBits_binary64, hlog, hbiased]
  rw [if_neg (by omega), if_pos trivial]

/-- The bits of a number whose mantissa has fewer. -/
theorem pack_subnormal (h : IsMagnitude m e) (hsub : m < 2 ^ 52) (s : Sign) :
    UnpackedFloat.pack .binary64 (.finite s m e h.pos) =
      packComponents .binary64 s 0#11 (BitVec.ofNat 52 m) := by
  have hlog : m.log2 < 52 := (Nat.log2_lt (Nat.ne_of_gt h.pos)).mpr hsub
  have hmost := h.most
  rw [UnpackedFloat.pack]
  simp only [exponentBias_binary64, mantissaBits_binary64]
  rw [if_neg (by omega), if_neg (by omega)]

end IsMagnitude

/-- A number that a double can be is what its bits say. -/
theorem IsDouble.unpack_pack {u : UnpackedFloat} (h : IsDouble u) :
    (Float.Model.pack u).unpack = u := by
  cases h with
  | notANumber => rfl
  | infinity s => cases s <;> rfl
  | zero s => cases s <;> rfl
  | @finite s m e h =>
    obtain ⟨hpos, hlt, hleast, hmost, hfull⟩ := h
    have h : IsMagnitude m e := ⟨hpos, hlt, hleast, hmost, hfull⟩
    show UnpackedFloat.unpack .binary64 (UnpackedFloat.pack .binary64 _) = _
    by_cases hnormal : 2 ^ 52 ≤ m
    · have hexponent : (BitVec.ofNat 11 (e + 1075).toNat).toNat = (e + 1075).toNat :=
        toNat_ofNat_of_lt (by omega)
      have hne : ∀ c : BitVec 11, c.toNat ≠ (e + 1075).toNat → BitVec.ofNat 11 (e + 1075).toNat ≠ c :=
        fun c hc heq => hc (heq ▸ hexponent)
      rw [h.pack_normal hnormal, UnpackedFloat.unpack]
      simp only [unpackMantissa_packComponents, unpackExponent_packComponents,
        Whole.sign_packComponents]
      rw [if_neg (hne _ (by simp; omega)), if_neg (hne _ (by simp; omega))]
      simp only [UnpackedFloat.finite.injEq, true_and, exponentBias_binary64, hexponent,
        toNat_implicit_append, BitVec.toNat_ofNat]
      omega
    · have hmantissa : (BitVec.ofNat 52 m).toNat = m := toNat_ofNat_of_lt (by omega)
      have hne : BitVec.ofNat 52 m ≠ 0#52 := fun heq =>
        Nat.ne_of_gt hpos (hmantissa.symm.trans (congrArg BitVec.toNat heq))
      have hzero : ((0#11).toNat : Int) = 0 := rfl
      rw [h.pack_subnormal (by omega), UnpackedFloat.unpack]
      simp only [unpackMantissa_packComponents, unpackExponent_packComponents,
        Whole.sign_packComponents]
      rw [if_neg (by decide), if_pos trivial, dif_neg hne]
      simp only [UnpackedFloat.finite.injEq, true_and, exponentBias_binary64, hmantissa, hzero]
      omega

/-! ### Unpacking -/

/-- What the fields of a double say. -/
inductive Unpacks (s : Sign) (e : BitVec 11) (m : BitVec 52) : UnpackedFloat → Prop
  | infinity (he : e = -1#11) (hm : m = 0#52) : Unpacks s e m (.infinity s)
  | notANumber (he : e = -1#11) (hm : 0 < m.toNat) : Unpacks s e m .notANumber
  | zero (he : e = 0#11) (hm : m = 0#52) : Unpacks s e m (.zero s)
  | subnormal (he : e = 0#11) (hm : 0 < m.toNat) : Unpacks s e m (.finite s m.toNat (-1074) hm)
  | normal (hpos : 0 < e.toNat) (hlt : e.toNat < 2047) :
      Unpacks s e m (.finite s (2 ^ 52 + m.toNat) (e.toNat - 1075) (by omega))

theorem unpacks (b : BitVec 64) :
    Unpacks (Sign.ofBitVec (@unpackSign .binary64 b)) (@unpackExponent .binary64 b)
      (@unpackMantissa .binary64 b) (UnpackedFloat.unpack .binary64 b) := by
  have helt : (@unpackExponent .binary64 b).toNat < 2 ^ 11 := BitVec.isLt _
  have hfinite : ∀ {u v : UnpackedFloat}, u = v →
      Unpacks (Sign.ofBitVec (@unpackSign .binary64 b)) (@unpackExponent .binary64 b)
        (@unpackMantissa .binary64 b) v →
      Unpacks (Sign.ofBitVec (@unpackSign .binary64 b)) (@unpackExponent .binary64 b)
        (@unpackMantissa .binary64 b) u := fun h hv => h ▸ hv
  have hpositive : @unpackMantissa .binary64 b ≠ 0#52 → 0 < (@unpackMantissa .binary64 b).toNat :=
    fun hm => Nat.pos_of_ne_zero fun h => hm (BitVec.eq_of_toNat_eq h)
  rw [UnpackedFloat.unpack]
  split
  · next he =>
    split
    · next hm => exact .infinity he hm
    · next hm => exact .notANumber he (hpositive hm)
  · next hmost =>
    have hlt : (@unpackExponent .binary64 b).toNat ≠ 2047 :=
      fun h => hmost (BitVec.eq_of_toNat_eq h)
    split
    · next he =>
      split
      · next hm => exact .zero he hm
      · next hm =>
        refine hfinite ?_ (.subnormal he (hpositive hm))
        have hzero : (@unpackExponent .binary64 b).toNat = 0 := by rw [he]; rfl
        simp only [UnpackedFloat.finite.injEq, true_and, hzero, exponentBias_binary64]
        omega
    · next he =>
      have hpos : (@unpackExponent .binary64 b).toNat ≠ 0 := fun h => he (BitVec.eq_of_toNat_eq h)
      refine hfinite ?_ (.normal (by omega) (by omega))
      simp only [UnpackedFloat.finite.injEq, true_and, toNat_implicit_append, exponentBias_binary64]
      omega

section

variable (x : Float.Model)

/-- **Every double is one of these numbers.** -/
theorem isDouble_unpack : IsDouble x.unpack := by
  have hfields := unpacks x.toBits.toBitVec
  have hm : (@unpackMantissa .binary64 x.toBits.toBitVec).toNat < 2 ^ 52 := BitVec.isLt _
  rw [Float.Model.unpack]
  generalize UnpackedFloat.unpack .binary64 x.toBits.toBitVec = u at hfields
  cases hfields with
  | infinity => exact .infinity _
  | notANumber => exact .notANumber
  | zero => exact .zero _
  | subnormal he hpos => exact .finite _ ⟨hpos, by omega, by omega, by omega, .inr rfl⟩
  | normal hpos hlt => exact .finite _ ⟨by omega, by omega, by omega, by omega, .inl (by omega)⟩

/-- The bits of a double are those of the number that it is. -/
theorem pack_unpack : Float.Model.pack x.unpack = x := by
  have hbits : UnpackedFloat.pack .binary64 x.unpack = x.toBits.toBitVec := by
    have hdouble := isDouble_unpack x
    have hfields := unpacks x.toBits.toBitVec
    have hparts := packComponents_unpack x.toBits.toBitVec
    have hvalid := x.valid.eq_packedNaN
    have hm : (@unpackMantissa .binary64 x.toBits.toBitVec).toNat < 2 ^ 52 := BitVec.isLt _
    rw [Float.Model.unpack] at hdouble ⊢
    generalize UnpackedFloat.unpack .binary64 x.toBits.toBitVec = u at hfields hdouble ⊢
    cases hfields with
    | infinity he hm => rwa [he, hm] at hparts
    | notANumber he hm => exact (hvalid he (ne_of_apply_ne BitVec.toNat (Nat.ne_of_gt hm))).symm
    | zero he hm => rwa [he, hm] at hparts
    | subnormal he hpos =>
      cases hdouble with | finite s h =>
      rw [h.pack_subnormal hm, BitVec.ofNat_toNat, BitVec.setWidth_eq, ← he]
      exact hparts
    | normal hpos hlt =>
      cases hdouble with | finite s h =>
      have he : BitVec.ofNat 11 ((@unpackExponent .binary64 x.toBits.toBitVec).toNat - 1075 + 1075 :
          Int).toNat = @unpackExponent .binary64 x.toBits.toBitVec := by
        apply BitVec.eq_of_toNat_eq
        rw [toNat_ofNat_of_lt (by omega)]
        omega
      have hmantissa : BitVec.ofNat 52 (2 ^ 52 + (@unpackMantissa .binary64 x.toBits.toBitVec).toNat) =
          @unpackMantissa .binary64 x.toBits.toBitVec := by
        apply BitVec.eq_of_toNat_eq
        rw [BitVec.toNat_ofNat]
        omega
      rw [h.pack_normal (by omega), he, hmantissa]
      exact hparts
  have hword : (Float.Model.pack x.unpack).toBits = x.toBits := congrArg UInt64.ofBitVec hbits
  rcases x with ⟨bits, valid⟩
  exact (Float.Model.mk.injEq _ _ _ _).mpr hword

end

/-! ### Reading the fields -/

namespace Decimal

/-- Whether a sign is a minus. -/
def isMinus : Sign → Bool
  | .negative => true
  | .positive => false

/-- What an unpacked number stands for. -/
def Binary.ofUnpacked : UnpackedFloat → Binary
  | .notANumber => .notANumber
  | .infinity s => .infinite (isMinus s)
  | .zero s => .finite (isMinus s) 0 minExponent
  | .finite s m e _ => .finite (isMinus s) m e

/-- **The fields of a double are its unpacked parts.** -/
theorem Binary.ofFloat_eq (x : Float) : Binary.ofFloat x = .ofUnpacked x.toModel.unpack := by
  have hbits : x.toBits.toNat = x.toModel.toBits.toBitVec.toNat := rfl
  have hfields := unpacks x.toModel.toBits.toBitVec
  have hm := toNat_unpackMantissa x.toModel.toBits.toBitVec
  have he := toNat_unpackExponent x.toModel.toBits.toBitVec
  have hs : (x.toModel.toBits.toBitVec.toNat / 2 ^ 63 == 1) =
      isMinus (Sign.ofBitVec (@unpackSign .binary64 x.toModel.toBits.toBitVec)) := by
    rw [← toNat_unpackSign]
    generalize @unpackSign .binary64 x.toModel.toBits.toBitVec = c
    revert c
    decide
  simp only [Binary.ofFloat, hbits, Nat.pow_eq, ← hm, ← he, hs]
  rw [Float.Model.unpack]
  generalize UnpackedFloat.unpack .binary64 x.toModel.toBits.toBitVec = u at hfields
  have hmantissa : fullMantissa = 2 ^ 52 := rfl
  cases hfields with
  | infinity he hm => simp [he, hm, Binary.ofUnpacked]
  | notANumber he hm => simp [he, Nat.ne_of_gt hm, Binary.ofUnpacked]
  | zero he hm => simp [he, hm, Binary.ofUnpacked]
  | subnormal he hpos => simp [he, Binary.ofUnpacked, minExponent]
  | normal hpos hlt =>
    simp only [beq_iff_eq, Nat.ne_of_lt hlt, Nat.ne_of_gt hpos, if_false, Binary.ofUnpacked,
      hmantissa, Binary.finite.injEq, true_and, minExponent]
    omega

theorem toInt?_of_finite {x : Float} {s : Sign} {m : Nat} {e : Int} {hpos : 0 < m}
    (hx : x.toModel.unpack = .finite s m e hpos) :
    toInt? x =
      if (ratio m e).1 % (ratio m e).2 = 0 then some (s.apply ((ratio m e).1 / (ratio m e).2 : Nat))
      else none := by
  simp only [toInt?, Binary.ofFloat_eq, hx, Binary.ofUnpacked, beq_iff_eq]
  generalize ratio m e = q
  cases s <;> rfl

theorem toInt?_of_zero {x : Float} {s : Sign} (hx : x.toModel.unpack = .zero s) :
    toInt? x = some 0 := by
  have hnum : (ratio 0 minExponent).1 = 0 := by
    rw [ratio]
    split
    · exact Nat.zero_mul _
    · rfl
  simp only [toInt?, Binary.ofFloat_eq, hx, Binary.ofUnpacked, hnum, Nat.zero_mod, Nat.zero_div]
  cases s <;> rfl

theorem ratio_pos {m : Nat} (hm : 0 < m) (e : Int) : 0 < (ratio m e).1 ∧ 0 < (ratio m e).2 := by
  rw [ratio]
  split
  · exact ⟨Nat.mul_pos hm (Nat.two_pow_pos _), Nat.one_pos⟩
  · exact ⟨hm, Nat.two_pow_pos _⟩

/-- A mantissa and an exponent make a small whole number exactly if they are its own. -/
theorem ratio_whole_iff {m k : Nat} {e : Int} (h : IsMagnitude m e) (hpos : 0 < k)
    (hlt : k < 2 ^ 53) :
    (ratio m e).1 % (ratio m e).2 = 0 ∧ (ratio m e).1 / (ratio m e).2 = k ↔
      m = wholeMantissa k ∧ e = k.log2 - 52 := by
  have hlog : k.log2 ≤ 52 := log2_le_of_lt hlt
  have hfull := h.full
  -- places behind the point are as many as `k` needs; without any, `k` fills the mantissa
  rcases lt_or_ge e 0 with he | he
  · obtain ⟨j, hj⟩ : ∃ j : Nat, (-e).toNat = j := ⟨_, rfl⟩
    have htwo : 0 < 2 ^ j := Nat.two_pow_pos j
    rw [ratio, if_neg (by omega), hj, Nat.pow_eq]
    dsimp only
    constructor
    · rintro ⟨hmod, hdiv⟩
      have hm : m = k * 2 ^ j := by rw [← hdiv, Nat.div_mul_cancel (Nat.dvd_of_mod_eq_zero hmod)]
      rcases hfull with hfull | hfull
      · have hlogm : m.log2 = 52 := (Nat.log2_eq_iff (Nat.ne_of_gt h.pos)).mpr ⟨hfull, h.lt⟩
        rw [hm, Whole.log2_mul_two_pow hpos] at hlogm
        have hplaces : j = 52 - k.log2 := by omega
        exact ⟨by rw [hm, wholeMantissa, hplaces], by omega⟩
      · -- the least exponent leaves no room for a whole number
        have hbig : 2 ^ 53 ≤ 2 ^ j := Nat.pow_le_pow_right (by decide) (by omega)
        have hle : 2 ^ j ≤ m := hm ▸ Nat.le_mul_of_pos_left _ hpos
        exact absurd h.lt (by omega)
    · rintro ⟨rfl, rfl⟩
      have hplaces : j = 52 - k.log2 := by omega
      rw [wholeMantissa, hplaces]
      exact ⟨Nat.mul_mod_left k _, Nat.mul_div_cancel k (Nat.two_pow_pos _)⟩
  · obtain ⟨j, hj⟩ : ∃ j : Nat, e.toNat = j := ⟨_, rfl⟩
    rw [ratio, if_pos he, hj, Nat.pow_eq]
    simp only [Nat.mod_one, Nat.div_one, true_and]
    have hfront : 2 ^ 52 ≤ m := hfull.resolve_right (by omega)
    constructor
    · intro hm
      have hj₀ : j = 0 := by
        by_contra hne
        have htwo : 2 ^ 1 ≤ 2 ^ j := Nat.pow_le_pow_right (by decide) (by omega)
        have hle : 2 ^ 52 * 2 ^ 1 ≤ m * 2 ^ j := Nat.mul_le_mul hfront htwo
        omega
      subst hj₀
      rw [pow_zero, mul_one] at hm
      subst hm
      have hlogm : m.log2 = 52 := (Nat.log2_eq_iff (Nat.ne_of_gt h.pos)).mpr ⟨hfront, h.lt⟩
      rw [wholeMantissa, hlogm]
      omega
    · rintro ⟨rfl, rfl⟩
      have hplaces : k.log2 = 52 := by omega
      have hj₀ : j = 0 := by omega
      rw [wholeMantissa, hplaces, hj₀]
      omega

/-- **The doubles that read as a small integer** are the whole numbers. -/
theorem toInt?_eq_some_iff {x : Float} {n : Int} (hlow : -2 ^ 53 < n) (hhigh : n < 2 ^ 53) :
    toInt? x = some n ↔ Whole x.toModel.unpack n := by
  have hdouble := isDouble_unpack x.toModel
  generalize hx : x.toModel.unpack = u at hdouble
  -- one case for each kind of double: only zeros and finite ones read as integers
  cases hdouble with
  | notANumber =>
    simp only [toInt?, Binary.ofFloat_eq, hx, Binary.ofUnpacked, reduceCtorEq, false_iff]
    nofun
  | infinity s =>
    simp only [toInt?, Binary.ofFloat_eq, hx, Binary.ofUnpacked, reduceCtorEq, false_iff]
    nofun
  | zero s =>
    rw [toInt?_of_zero hx, Option.some_inj]
    refine ⟨fun h => h ▸ .zero s, fun h => ?_⟩
    cases h
    rfl
  | @finite s m e h =>
    obtain ⟨k, hk⟩ : ∃ k, (ratio m e).1 / (ratio m e).2 = k := ⟨_, rfl⟩
    rw [toInt?_of_finite hx, hk]
    constructor
    · intro hn
      split at hn
      · next hmod =>
        rw [Option.some_inj] at hn
        have hlt : k < 2 ^ 53 := by
          cases s
          · have : -(k : Int) = n := hn
            omega
          · have : (k : Int) = n := hn
            omega
        have hpos : 0 < k := hk ▸ Nat.div_pos
          (Nat.le_of_dvd (ratio_pos h.pos e).1 (Nat.dvd_of_mod_eq_zero hmod)) (ratio_pos h.pos e).2
        obtain ⟨rfl, rfl⟩ := (ratio_whole_iff h hpos hlt).mp ⟨hmod, hk⟩
        exact hn ▸ .finite s hpos hlt
      · cases hn
    · intro hwhole
      cases hwhole with | @finite s k' hpos hlt =>
      obtain ⟨hmod, hdiv⟩ := (ratio_whole_iff h hpos hlt).mpr ⟨rfl, rfl⟩
      rw [if_pos hmod, ← hk, hdiv]

end Decimal

end LogoEngine
