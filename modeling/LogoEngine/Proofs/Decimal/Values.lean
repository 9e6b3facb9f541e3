import LogoEngine.Proofs.Decimal.Scientific

/-!
# The numbers of doubles

A finite double stands for a rational number (`doubleValue`), and two of them are equal exactly if they
stand for the same one: the two zeros do, and otherwise sign, mantissa and exponent are determined by
it. A numeral denotes a rational number as well, and it is read as the double that this number is
rounded to, so that numerals of one number are read alike however they are written.

Main statements: `beq_iff_doubleValue` and `beq_of_isRounded`.
-/

namespace LogoEngine

open Float.Model Float.Model.UnpackedFloat

/-- A number with a sign before it. -/
def withSign (s : Sign) (q : ℚ) : ℚ :=
  match s with
  | .negative => -q
  | .positive => q

/-- The number that an unpacked one stands for, if it is finite. -/
def unpackedValue : UnpackedFloat → ℚ
  | .finite s m e _ => withSign s (m * 2 ^ e)
  | .notANumber | .infinity _ | .zero _ => 0

/-- The number that a finite double stands for. -/
def doubleValue (x : Float) : ℚ :=
  unpackedValue x.toModel.unpack

/-- A number is **rounded** to a double, or to a zero or an infinity if it is in the room of none. -/
def IsRounded (q : ℚ) (x : Float) : Prop :=
  ∀ (m : Nat) (e : Int) (h : IsMagnitude m e) (s : Sign), x.toModel.unpack = .finite s m e h.pos ↔
    InRoom m e (withSign s q)

section

variable {x y : Float} {q q' : ℚ} {s t : Sign} {m : Nat} {e : Int}

theorem InRoom.pos (hroom : InRoom m e q) (h : IsMagnitude m e) : 0 < q :=
  (zpow_pos (by norm_num) _).trans_le (Decimal.ten_zpow_bounds h hroom).1

/-- What is in a room is positive, and so its sign is the one that was put before it. -/
theorem inRoom_withSign_iff (h : IsMagnitude m e) (hq : 0 ≤ q) :
    InRoom m e (withSign s (withSign t q)) ↔ s = t ∧ InRoom m e q := by
  have hnegative : ¬ InRoom m e (-q) := fun hroom => by linarith [hroom.pos h]
  cases s <;> cases t <;> simp [withSign, hnegative]

/-- A double is rounded to itself. -/
theorem isRounded_doubleValue (x : Float) : IsRounded (doubleValue x) x := by
  intro m e h s
  have hzero : ∀ t, ¬ InRoom m e (withSign t 0) := fun t hroom => by
    have hpos := hroom.pos h
    cases t <;> simp [withSign] at hpos
  have hdouble := isDouble_unpack x.toModel
  rw [doubleValue]
  generalize x.toModel.unpack = u at hdouble
  cases hdouble with
  | notANumber => exact ⟨nofun, fun hroom => (hzero s hroom).elim⟩
  | infinity t => exact ⟨nofun, fun hroom => (hzero s hroom).elim⟩
  | zero t => exact ⟨nofun, fun hroom => (hzero s hroom).elim⟩
  | @finite t m' e' h' =>
    rw [unpackedValue, inRoom_withSign_iff h (by positivity)]
    constructor
    · intro heq
      cases heq
      exact ⟨rfl, .self m e⟩
    · rintro ⟨rfl, hroom⟩
      obtain ⟨rfl, rfl⟩ := hroom.unique h.fits (.self m' e') h'.fits
      rfl

/-- Doubles with the same bits are the same. -/
theorem eq_of_unpack_eq (h : x.toModel.unpack = y.toModel.unpack) : x = y := by
  have hmodel : x.toModel = y.toModel := by rw [← pack_unpack x.toModel, h, pack_unpack]
  cases x
  cases y
  exact congrArg Float.ofModel hmodel

/-- A finite double is a zero or has a mantissa. -/
theorem unpack_cases (hx : x.isFinite = true) : (∃ s, x.toModel.unpack = .zero s) ∨
    ∃ s m e, ∃ h : IsMagnitude m e, x.toModel.unpack = .finite s m e h.pos := by
  have hfinite : x.toModel.unpack.isFinite = true := hx
  have hdouble := isDouble_unpack x.toModel
  generalize x.toModel.unpack = u at hdouble hfinite
  cases hdouble with
  | notANumber | infinity s => cases hfinite
  | zero s => exact .inl ⟨s, rfl⟩
  | finite s h => exact .inr ⟨s, _, _, h, rfl⟩

theorem beq_self_of_isFinite (hx : x.isFinite = true) : (x == x) = true := by
  rw [beq_iff_compare]
  rcases unpack_cases hx with ⟨s, hu⟩ | ⟨s, m, e, h, hu⟩ <;> rw [hu]
  · cases s <;> rfl
  · cases s <;> simp [UnpackedFloat.compare]

/-- **Doubles that one number is rounded to are equal.** -/
theorem beq_of_isRounded (hx : x.isFinite = true) (hy : y.isFinite = true) (hqx : IsRounded q x)
    (hqy : IsRounded q y) : (x == y) = true := by
  rcases unpack_cases hx with ⟨s, hu⟩ | ⟨s, m, e, h, hu⟩
  · rcases unpack_cases hy with ⟨t, hv⟩ | ⟨t, m, e, h, hv⟩
    · rw [beq_iff_compare, hu, hv]
      rfl
    · have hu' := (hqx m e h t).mpr ((hqy m e h t).mp hv)
      rw [hu] at hu'
      cases hu'
  · have hv : y.toModel.unpack = .finite s m e h.pos := (hqy m e h s).mpr ((hqx m e h s).mp hu)
    rw [eq_of_unpack_eq (hu.trans hv.symm)]
    exact beq_self_of_isFinite hy

/-- **Finite doubles are equal exactly if they stand for the same number.** -/
theorem beq_iff_doubleValue (hx : x.isFinite = true) (hy : y.isFinite = true) :
    (x == y) = true ↔ doubleValue x = doubleValue y := by
  constructor
  · rw [beq_iff_compare, doubleValue, doubleValue]
    rcases unpack_cases hx with ⟨s, hu⟩ | ⟨s, m, e, h, hu⟩ <;>
      rcases unpack_cases hy with ⟨t, hv⟩ | ⟨t, m', e', h', hv⟩ <;> rw [hu, hv]
    · exact fun _ => rfl
    · cases t <;> exact nofun
    · cases s <;> exact nofun
    · -- equal in the order of doubles is equal in sign, exponent and mantissa
      cases s <;> cases t <;> simp only [UnpackedFloat.compare, Option.some.injEq, reduceCtorEq,
        false_implies, Ordering.swap_eq_eq, Ordering.then_eq_eq, Int.compare_eq_eq, Nat.compare_eq_eq]
      · rintro ⟨rfl, rfl⟩
        rfl
      · rintro ⟨rfl, rfl⟩
        rfl
  · intro heq
    have hy' := isRounded_doubleValue y
    rw [← heq] at hy'
    exact beq_of_isRounded hx hy (isRounded_doubleValue x) hy'

end

/-! ### Numerals -/

namespace Decimal.Numeral

variable (n : Numeral)

/-- The number that a numeral denotes. -/
def value : ℚ :=
  withSign (signOf n.negative) n.magnitude

/-- **A numeral is read as the double** that its number is rounded to. -/
theorem isRounded_toFloat : IsRounded n.value n.toFloat := by
  intro m e h s
  have hmagnitude : 0 ≤ n.magnitude := by
    rw [magnitude]
    positivity
  rw [unpack_toFloat_iff h, value, inRoom_withSign_iff h hmagnitude]

end Decimal.Numeral

end LogoEngine
