import LogoEngine.Proofs.Decimal.Case
import LogoEngine.Proofs.Decimal.Closest
import LogoEngine.Proofs.Decimal.RoundTrip

/-!
# How numbers are written

Whether a number is written with an exponent is decided by the exponent of the first of its
shortest digits, which is the decimal exponent of the number that the text denotes. Since rooms are
ordered as their doubles are, and the shortest digits of the two limits are a one and zeros, this
is a comparison of the double with the limits as well. The search ends before its grid gets finer
than the integers if the double is one, and so an integer has no digits behind the point.

Main statement: `numberText_spec`.
-/

namespace LogoEngine

open Float.Model Float.Model.UnpackedFloat

/-! ### The order of rooms -/

section

variable {m m' : Nat} {e e' : Int} {q q' : ℚ}

/-- Of two doubles the greater one has the greater numbers in its room. -/
theorem InRoom.lt_of_lt (hroom : InRoom m e q) (h : Fits m e) (hroom' : InRoom m' e' q')
    (h' : Fits m' e') (hlt : (m * 2 ^ e : ℚ) < m' * 2 ^ e') : q < q' := by
  have hbelow : 2 * q ≤ m * 2 ^ e + m' * 2 ^ e' := by
    have hle := hroom.abs_sub_le h h'
    rcases abs_cases (m * 2 ^ e - q) with hq | hq <;>
      rcases abs_cases (m' * 2 ^ e' - q) with hq' | hq' <;> linarith
  have habove : m * 2 ^ e + m' * 2 ^ e' ≤ 2 * q' := by
    have hle := hroom'.abs_sub_le h' h
    rcases abs_cases (m * 2 ^ e - q') with hq | hq <;>
      rcases abs_cases (m' * 2 ^ e' - q') with hq' | hq' <;> linarith
  refine lt_of_le_of_ne (by linarith) ?_
  rintro rfl
  obtain ⟨rfl, rfl⟩ := hroom.unique h hroom' h'
  exact lt_irrefl _ hlt

/-- If one number is chosen in every room, then these numbers are ordered as the doubles are. -/
theorem InRoom.lt_iff (hroom : InRoom m e q) (h : Fits m e) (hroom' : InRoom m' e' q')
    (h' : Fits m' e') (hsame : m = m' → e = e' → q = q') :
    q < q' ↔ (m * 2 ^ e : ℚ) < m' * 2 ^ e' := by
  refine ⟨fun hq => ?_, hroom.lt_of_lt h hroom' h'⟩
  rcases lt_trichotomy (m * 2 ^ e : ℚ) (m' * 2 ^ e') with hlt | heq | hlt
  · exact hlt
  · obtain ⟨rfl, rfl⟩ := h.unique h' heq
    exact absurd hq (hsame rfl rfl).not_lt
  · exact absurd hq (hroom'.lt_of_lt h' hroom h hlt).not_gt

end

namespace Decimal

/-! ### The decimal exponent -/

section

variable {c : Nat}

theorem length_digitsOf (c : Nat) : (digitsOf c).length = (Nat.toDigits 10 c).length :=
  List.length_map _

theorem length_digitsOf_pos (c : Nat) : 0 < (digitsOf c).length := by
  rw [length_digitsOf]
  exact Nat.length_toDigits_pos

/-- The first digit of a decimal has the exponent of the decimal. -/
theorem log_digitsOf (hc : c ≠ 0) (unit : Int) :
    Int.log 10 (c * 10 ^ unit : ℚ) = (digitsOf c).length + unit - 1 := by
  have hten : (0 : ℚ) < 10 ^ unit := zpow_pos (by norm_num) unit
  have hpos : (0 : ℚ) < c * 10 ^ unit := mul_pos (by exact_mod_cast Nat.pos_of_ne_zero hc) hten
  have hlength := length_digitsOf_pos c
  obtain ⟨k, hk⟩ : ∃ k, (digitsOf c).length = k + 1 := Nat.exists_eq_add_one.mpr hlength
  have hhigh : c < 10 ^ (k + 1) := by
    rw [← Nat.length_toDigits_le_iff (by decide) k.succ_pos, ← length_digitsOf, hk]
  have hlow : 10 ^ k ≤ c := by
    rcases Nat.eq_zero_or_pos k with rfl | hkpos
    · exact Nat.pos_of_ne_zero hc
    · by_contra hlt
      have hle := (Nat.length_toDigits_le_iff (by decide) hkpos).mpr (not_le.mp hlt)
      rw [← length_digitsOf] at hle
      omega
  have hbelow : Int.log 10 (c * 10 ^ unit : ℚ) < k + 1 + unit := by
    refine (Int.lt_zpow_iff_log_lt (by decide) hpos).mp ?_
    rw [Nat.cast_ofNat, zpow_add₀ (by norm_num), ← Nat.cast_succ, zpow_natCast]
    exact mul_lt_mul_of_pos_right (by exact_mod_cast hhigh) hten
  have habove : k + unit ≤ Int.log 10 (c * 10 ^ unit : ℚ) := by
    refine (Int.zpow_le_iff_le_log (by decide) hpos).mp ?_
    rw [Nat.cast_ofNat, zpow_add₀ (by norm_num), zpow_natCast]
    exact mul_le_mul_of_nonneg_right (by exact_mod_cast hlow) hten.le
  omega

end

/-! ### Integers -/

section

variable {m : Nat} {e : Int} {n : Nat}

theorem ratio_of_whole (hm : 0 < m) (hn : (m * 2 ^ e : ℚ) = n) :
    (ratio m e).1 = n * (ratio m e).2 := by
  have hden : ((ratio m e).2 : ℚ) ≠ 0 := by exact_mod_cast (ratio_pos hm e).2.ne'
  rw [← ratio_eq, div_eq_iff hden] at hn
  exact_mod_cast hn

/-- On the grid of the integers an integer is its own candidate. -/
theorem hits_gridFloor_of_whole (hm : 0 < m) (hn : (m * 2 ^ e : ℚ) = n) :
    hits m e 0 (gridFloor m e 0) = true := by
  have hfloor : gridFloor m e 0 = n := by
    rw [gridFloor, ratio_of_whole hm hn]
    simp [Nat.mul_div_cancel _ (ratio_pos hm e).2]
  rw [hits_iff hm, hfloor, zpow_zero, mul_one, ← hn]
  exact .self m e

theorem firstExponent_of_whole (hm : 0 < m) (hn : (m * 2 ^ e : ℚ) = n) :
    0 ≤ firstExponent m e := by
  obtain ⟨hnum, -⟩ := ratio_pos hm e
  have hratio := ratio_of_whole hm hn
  have hle : (ratio m e).2 ≤ (ratio m e).1 := by
    rw [hratio] at hnum ⊢
    exact Nat.le_mul_of_pos_left _ (Nat.pos_of_mul_pos_right hnum)
  have hlength : 0 < (Nat.toDigits 10 ((ratio m e).1 / (ratio m e).2)).length :=
    Nat.length_toDigits_pos
  rw [firstExponent, decimalExponent, if_pos hle]
  omega

/-- The search ends after eighteen digits, and for an integer on the grid of the integers or before
it. -/
theorem exists_count (h : IsMagnitude m e) : ∃ k : Nat, 1 ≤ k ∧ k ≤ 18 ∧
    hits m e (firstExponent m e + 1 - k) (gridFloor m e (firstExponent m e + 1 - k)) = true ∧
    ∀ n : Nat, (m * 2 ^ e : ℚ) = n → 0 ≤ firstExponent m e + 1 - k := by
  by_cases hwhole : (∃ n : Nat, (m * 2 ^ e : ℚ) = n) ∧ firstExponent m e + 1 ≤ 18
  · obtain ⟨⟨n, hn⟩, hle⟩ := hwhole
    have hfirst := firstExponent_of_whole h.pos hn
    have hunit : firstExponent m e + 1 - (firstExponent m e + 1).toNat = 0 := by omega
    refine ⟨(firstExponent m e + 1).toNat, by omega, by omega, ?_, fun _ _ => hunit.ge⟩
    rw [hunit]
    exact hits_gridFloor_of_whole h.pos hn
  · refine ⟨18, by decide, le_rfl, hits_gridFloor_eighteen h, fun n hn => ?_⟩
    have hlarge : ¬ firstExponent m e + 1 ≤ 18 := fun hle => hwhole ⟨⟨n, hn⟩, hle⟩
    omega

/-- **The shortest digits** of a double denote a number in its room, with the exponent of the first
digit as its decimal exponent. If the double is an integer, then none of them is behind the point.
-/
theorem exists_shortest_spec (tie : Tie) (h : IsMagnitude m e) :
    ∃ q, InRoom m e q ∧ (shortest tie m e).Denotes q ∧
      (shortest tie m e).scientific = Int.log 10 q ∧
      ∀ n : Nat, (m * 2 ^ e : ℚ) = n → 0 < (shortest tie m e).point ∧
        (shortest tie m e).digits.length ≤ (shortest tie m e).point := by
  obtain ⟨k, hlow, hhigh, hhits, hwhole⟩ := exists_count h
  obtain ⟨c, unit, hc, hunit, hroom, hshortest⟩ := exists_shortest tie h hhits hlow hhigh
  rw [hshortest]
  refine ⟨_, hroom, denotes_dropTrailingZeros hc unit, (log_digitsOf hc unit).symm, fun n hn => ?_⟩
  have hlength := length_digitsOf_pos c
  have hle : (dropTrailingZeros (digitsOf c)).length ≤ (digitsOf c).length := by
    obtain ⟨zeros, hsplit⟩ := exists_dropTrailingZeros (digitsOf c)
    rw [hsplit, List.length_append, ← hsplit]
    exact Nat.le_add_right _ _
  have hplaces := hwhole n hn
  constructor <;> dsimp only <;> omega

end

/-! ### Texts -/

/-- A text has an exponent. -/
def HasExponent (cs : List Char) : Prop :=
  ∃ c ∈ cs, c = 'e' ∨ c = 'E'

theorem Unmarked.not_hasExponent {cs : List Char} (h : Unmarked cs) : ¬ HasExponent cs := by
  rintro ⟨c, hc, hmark⟩
  exact hmark.elim (h c hc).1 (h c hc).2

namespace Digits

variable {d : Digits} {q : ℚ}

theorem hasExponent_withExponent (d : Digits) (layout : Layout) :
    HasExponent (d.withExponent layout).toList := by
  refine ⟨'e', ?_, .inl rfl⟩
  simp [withExponent]

/-- Digits behind which the point would stand are written without it. -/
theorem Denotes.allDigits_positional (h : d.Denotes q) (hpos : 0 < d.point)
    (hle : d.digits.length ≤ d.point) : AllDigits (d.positional "").toList := by
  rw [positional, if_neg (by omega), if_pos (by omega), String.append_empty, String.toList_append,
    toList_digitText, toList_zeros]
  exact allDigits_append (allDigits_map h.lt_ten) (allDigits_zeros _)

theorem Denotes.unmarked_positional (h : d.Denotes q) : Unmarked (d.positional "").toList := by
  have hzeros (k : Nat) : Unmarked (zeros k).toList := by
    rw [toList_zeros]
    exact (allDigits_zeros k).unmarked
  have hdigits {ds : List Nat} (hds : ∀ x ∈ ds, x ∈ d.digits) : Unmarked (digitText ds).toList := by
    rw [toList_digitText]
    exact (allDigits_map fun x hx => h.lt_ten x (hds x hx)).unmarked
  have hpoint : Unmarked ".".toList := by simp [Unmarked]
  have hbefore : Unmarked "0.".toList := by simp [Unmarked]
  rw [positional]
  split
  · rw [String.toList_append, String.toList_append]
    exact (hbefore.append (hzeros _)).append (hdigits fun _ hx => hx)
  · split
    · rw [String.append_empty, String.toList_append]
      exact (hdigits fun _ hx => hx).append (hzeros _)
    · rw [String.toList_append, String.toList_append]
      exact ((hdigits fun _ => List.mem_of_mem_take).append hpoint).append
        (hdigits fun _ => List.mem_of_mem_drop)

end Digits

end Decimal

/-! ### Words -/

/-- The digits of a double as a word. -/
def wordDigits (m : Nat) (e : Int) : Decimal.Digits :=
  Decimal.shortest wordLayout.tie m e

section

variable {x y limit : Float} {s : Sign} {m m₀ : Nat} {e e₀ k : Int} {hpos : 0 < m} {q : ℚ}

theorem exists_wordDigits (h : IsMagnitude m e) :
    ∃ q, InRoom m e q ∧ (wordDigits m e).Denotes q ∧ (wordDigits m e).scientific = Int.log 10 q ∧
      ∀ n : Nat, (m * 2 ^ e : ℚ) = n → 0 < (wordDigits m e).point ∧
        (wordDigits m e).digits.length ≤ (wordDigits m e).point :=
  Decimal.exists_shortest_spec wordLayout.tie h

/-- If a double is written as a power of ten, then the doubles below it are those whose first digit has
a smaller exponent. -/
theorem scientific_lt_iff (h : IsMagnitude m e) (hx : x.toModel.unpack = .finite s m e h.pos)
    (h₀ : IsMagnitude m₀ e₀) (hlimit : limit.toModel.unpack = .finite .positive m₀ e₀ h₀.pos)
    (hone : wordDigits m₀ e₀ = ⟨[1], k + 1⟩) :
    (wordDigits m e).scientific < k ↔ |doubleValue x| < doubleValue limit := by
  obtain ⟨q, hroom, hdenotes, hlog, -⟩ := exists_wordDigits h
  obtain ⟨q₀, hroom₀, hdenotes₀, -, -⟩ := exists_wordDigits h₀
  have hpower : ((10 : Nat) : ℚ) ^ k = q₀ := by
    have hvalue := hdenotes₀.value
    have hnumber : Decimal.numberOf [1] = 1 := by decide
    rw [hone, hnumber, Nat.cast_one, one_mul] at hvalue
    rw [← hvalue, Nat.cast_ofNat, List.length_singleton, Nat.cast_one, add_sub_cancel_right]
  have hsame : m = m₀ → e = e₀ → q = q₀ := by
    rintro rfl rfl
    exact hdenotes.value.symm.trans hdenotes₀.value
  have hvalue : |doubleValue x| = m * 2 ^ e := by
    rw [(hasParts_of_finite h hx).value, abs_withSign _ (by positivity)]
  have hvalue₀ : doubleValue limit = m₀ * 2 ^ e₀ := (hasParts_of_finite h₀ hlimit).value
  rw [hlog, ← Int.lt_zpow_iff_log_lt (by decide) (hroom.pos h), hpower, hvalue, hvalue₀]
  exact hroom.lt_iff h.fits hroom₀ h₀.fits hsame

/-- The decimal exponents that are too small or too large for a word without exponent are those of the
doubles below the one limit and from the other one on. -/
theorem scientific_limits_iff (h : IsMagnitude m e) (hx : x.toModel.unpack = .finite s m e h.pos) :
    (wordDigits m e).scientific < -6 ∨ 20 < (wordDigits m e).scientific ↔
      |doubleValue x| < doubleValue 1e-6 ∨ doubleValue 1e21 ≤ |doubleValue x| := by
  have hleast : IsMagnitude 4722366482869645 (-72) := by constructor <;> decide
  have hmost : IsMagnitude 7629394531250000 17 := by constructor <;> decide
  have hlow : (wordDigits m e).scientific < -6 ↔ |doubleValue x| < doubleValue 1e-6 :=
    scientific_lt_iff h hx hleast rfl (by decide +kernel)
  have hhigh : (wordDigits m e).scientific < 21 ↔ |doubleValue x| < doubleValue 1e21 :=
    scientific_lt_iff h hx hmost rfl (by decide +kernel)
  rw [hlow, ← not_lt, ← hhigh]
  exact or_congr_right (by omega)

/-- The text of a double is that of its digits behind a sign. -/
theorem toList_numberText (hx : x.toModel.unpack = .finite s m e hpos) :
    (numberText x).toList = (if Decimal.isMinus s then "-" else "").toList ++
      (if wordLayout.isPositional (wordDigits m e).scientific then (wordDigits m e).positional ""
        else (wordDigits m e).withExponent wordLayout).toList := by
  rw [numberText, Decimal.render_of_finite wordLayout hx, String.toList_append]
  rfl

theorem hasExponent_numberText_iff (hx : x.toModel.unpack = .finite s m e hpos)
    (hdenotes : (wordDigits m e).Denotes q) : Decimal.HasExponent (numberText x).toList ↔
      ¬ wordLayout.isPositional (wordDigits m e).scientific = true := by
  have hsign : Decimal.Unmarked (if Decimal.isMinus s then "-" else "").toList := by
    cases s <;> simp [Decimal.Unmarked, Decimal.isMinus]
  rw [toList_numberText hx]
  by_cases hpositional : wordLayout.isPositional (wordDigits m e).scientific = true
  · rw [if_pos hpositional]
    have hunmarked := (hsign.append hdenotes.unmarked_positional).not_hasExponent
    exact ⟨fun hmarked => absurd hmarked hunmarked, fun hne => absurd hpositional hne⟩
  · rw [if_neg hpositional]
    obtain ⟨c, hc, hmark⟩ := Decimal.Digits.hasExponent_withExponent (wordDigits m e) wordLayout
    exact ⟨fun _ => hpositional, fun _ => ⟨c, List.mem_append_right _ hc, hmark⟩⟩

theorem isPositional_wordLayout : wordLayout.isPositional k = true ↔ -6 ≤ k ∧ k ≤ 20 := by
  show (decide (-6 ≤ k) && decide (k < 21)) = true ↔ _
  rw [Bool.and_eq_true, decide_eq_true_iff, decide_eq_true_iff]
  omega

/-- An integer that is written without exponent is written without a point. -/
theorem point_not_mem_numberText (h : IsMagnitude m e)
    (hx : x.toModel.unpack = .finite s m e h.pos) {z : Int} (hz : doubleValue x = z)
    (hunmarked : ¬ Decimal.HasExponent (numberText x).toList) : '.' ∉ (numberText x).toList := by
  have hwhole : (m * 2 ^ e : ℚ) = z.natAbs := by
    rw [Nat.cast_natAbs, Int.cast_abs, ← hz, (hasParts_of_finite h hx).value,
      abs_withSign _ (by positivity)]
  obtain ⟨q, -, hdenotes, -, hplaces⟩ := exists_wordDigits h
  obtain ⟨hpoint, hle⟩ := hplaces _ hwhole
  have hpositional : wordLayout.isPositional (wordDigits m e).scientific = true :=
    not_not.mp (mt (hasExponent_numberText_iff hx hdenotes).mpr hunmarked)
  have hsign : '.' ∉ (if Decimal.isMinus s then "-" else "").toList := by
    cases s <;> simp [Decimal.isMinus]
  have hdigits := hdenotes.allDigits_positional hpoint hle
  rw [toList_numberText hx, if_pos hpositional, List.mem_append]
  rintro (hmem | hmem)
  · exact hsign hmem
  · exact absurd (hdigits '.' hmem) (by decide)

/-- What is read back is written alike. -/
theorem numberText_of_parse? (hx : x.isFinite = true)
    (hy : Decimal.parse? (numberText x) = some y) : numberText y = numberText x := by
  rw [parse?_numberText hx, Option.some_inj] at hy
  rcases unpack_cases hx with ⟨s, hu⟩ | ⟨s, m, e, h, hu⟩
  · rw [if_pos (beq_zero_of_zero hu)] at hy
    rw [numberText_of_zero hu, ← hy]
    rfl
  · rw [if_neg (not_beq_zero_of_finite hu)] at hy
    rw [hy]

/-- **Numbers that are written.** The text of a finite double spells a numeral, and it is read as
the double, or as the positive zero if the double is a zero. It has an exponent exactly if the
double is no zero and the decimal exponent of the numeral is below -6 or above 20, which is so
below `1e-6` and from `1e21` on. An integer without exponent has no point, and what is read back is
written alike. -/
theorem numberText_spec (hx : x.isFinite = true) :
    ∃ n, Decimal.Spells (numberText x).toList n ∧
      Decimal.parse? (numberText x) = some (if x == 0.0 then 0.0 else x) ∧
      (Decimal.HasExponent (numberText x).toList ↔ ¬ (x == 0.0) = true ∧
        (Int.log 10 n.magnitude < -6 ∨ 20 < Int.log 10 n.magnitude)) ∧
      (Decimal.HasExponent (numberText x).toList ↔ ¬ (x == 0.0) = true ∧
        (|doubleValue x| < doubleValue 1e-6 ∨ doubleValue 1e21 ≤ |doubleValue x|)) ∧
      ((∃ z : Int, doubleValue x = z) → ¬ Decimal.HasExponent (numberText x).toList →
        '.' ∉ (numberText x).toList) ∧
      ∀ y, Decimal.parse? (numberText x) = some y → numberText y = numberText x := by
  rcases unpack_cases hx with ⟨s, hu⟩ | ⟨s, m, e, h, hu⟩
  · have htext : (numberText x).toList = ['0'] := congrArg String.toList (numberText_of_zero hu)
    have hunmarked : ¬ Decimal.HasExponent (numberText x).toList := by
      simp [htext, Decimal.HasExponent]
    have hnever (p : Prop) :
        Decimal.HasExponent (numberText x).toList ↔ ¬ (x == 0.0) = true ∧ p :=
      ⟨fun hmarked => absurd hmarked hunmarked, fun hp => absurd (beq_zero_of_zero hu) hp.1⟩
    have hspells : Decimal.Spells (numberText x).toList ⟨false, 0, 0⟩ := by
      rw [htext]
      exact Decimal.parse?_eq_some_iff.mp rfl
    refine ⟨_, hspells, parse?_numberText hx, hnever _, hnever _, fun _ _ => ?_,
      fun _ => numberText_of_parse? hx⟩
    rw [htext]
    decide
  · obtain ⟨q, -, hdenotes, hlog, -⟩ := exists_wordDigits h
    obtain ⟨n, hspells, -, rfl⟩ := Decimal.exists_spells_render wordLayout rfl .plus hu hdenotes
    have hexponent : Decimal.HasExponent (numberText x).toList ↔ ¬ (x == 0.0) = true ∧
        ((wordDigits m e).scientific < -6 ∨ 20 < (wordDigits m e).scientific) := by
      rw [hasExponent_numberText_iff hu hdenotes, isPositional_wordLayout,
        and_iff_right (not_beq_zero_of_finite hu)]
      omega
    refine ⟨n, hspells, parse?_numberText hx, hlog ▸ hexponent, ?_,
      fun ⟨_, hz⟩ => point_not_mem_numberText h hu hz, fun _ => numberText_of_parse? hx⟩
    rwa [← scientific_limits_iff h hu]

end

/-- The greatest power of ten that is written without exponent. -/
theorem numberText_ten_pow_twenty : (1e20 : Float).isFinite = true ∧
    (∃ z : Int, doubleValue 1e20 = z) ∧ ¬ Decimal.HasExponent (numberText 1e20).toList ∧
    '.' ∉ (numberText 1e20).toList ∧ Decimal.parse? (numberText 1e20) = some 1e20 := by
  have htext : numberText 1e20 = "100000000000000000000" := by decide +kernel
  have hunmarked : ¬ Decimal.HasExponent (numberText 1e20).toList := by
    simp [htext, Decimal.HasExponent]
  have hinteger : ∃ z : Int, doubleValue 1e20 = z := by
    have hvalue : doubleValue 1e20 = withSign .positive (6103515625000000 * 2 ^ (14 : Int)) := rfl
    refine ⟨10 ^ 20, ?_⟩
    rw [hvalue, withSign]
    norm_num
  have hne : ¬ ((1e20 : Float) == 0.0) = true := by decide
  obtain ⟨n, -, hread, -, -, hpoint, -⟩ := numberText_spec (x := 1e20) rfl
  rw [if_neg hne] at hread
  exact ⟨rfl, hinteger, hunmarked, hpoint hinteger hunmarked, hread⟩

end LogoEngine
