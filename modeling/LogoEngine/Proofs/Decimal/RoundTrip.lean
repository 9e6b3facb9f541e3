import LogoEngine.Proofs.Decimal.Grammar
import LogoEngine.Proofs.Decimal.Shortest
import LogoEngine.Proofs.Decimal.Values
import LogoEngine.Word

/-!
# Numbers that are written read back

However the shortest digits of a double are laid out, with a point and zeros or with an exponent, the
text spells the number that they denote. This number is in the room of the double, and so the text is
read as the double itself. Zero is written without a sign and read as the positive one.

Main statement: `parse?_numberText`.
-/

namespace LogoEngine

open Float.Model Float.Model.UnpackedFloat

namespace Decimal

/-! ### Texts of digits -/

section

variable {ds : List Nat} {cs : List Char}

theorem digitsValue_append (cs cs' : List Char) :
    digitsValue (cs ++ cs') = Nat.ofDigitChars 10 cs' (digitsValue cs) :=
  Nat.ofDigitChars_append 0

/-- Zeros in front make no difference. -/
theorem digitsValue_zeros_append (k : Nat) (cs : List Char) :
    digitsValue (List.replicate k '0' ++ cs) = digitsValue cs := by
  have hzeros : digitsValue (List.replicate k '0') = 0 :=
    Nat.ofDigitChars_replicate_zero.trans (Nat.mul_zero _)
  rw [digitsValue_append, hzeros]
  rfl

theorem digitsValue_append_zeros (cs : List Char) (k : Nat) :
    digitsValue (cs ++ List.replicate k '0') = digitsValue cs * 10 ^ k := by
  rw [digitsValue_append, Nat.ofDigitChars_replicate_zero, mul_comm]

theorem allDigits_append {cs cs' : List Char} (h : AllDigits cs) (h' : AllDigits cs') :
    AllDigits (cs ++ cs') := fun c hc =>
  (List.mem_append.mp hc).elim (h c) (h' c)

theorem allDigits_zeros (k : Nat) : AllDigits (List.replicate k '0') := fun c hc => by
  rw [List.eq_of_mem_replicate hc]
  decide

theorem allDigits_map (h : ∀ x ∈ ds, x < 10) : AllDigits (ds.map digitChar) := fun c hc => by
  obtain ⟨x, hx, rfl⟩ := List.mem_map.mp hc
  exact isDigit_digitChar (h x hx)

theorem toList_digitText (ds : List Nat) : (digitText ds).toList = ds.map digitChar :=
  String.toList_ofList

theorem toList_zeros (k : Nat) : (zeros k).toList = List.replicate k '0' :=
  String.toList_ofList

/-- Zeros in front fill a number up to its width. -/
theorem toList_padded (width n : Nat) : ∃ k, (padded width n).toList =
    List.replicate k '0' ++ Nat.toDigits 10 n := by
  refine ⟨width - (digitsOf n).length, ?_⟩
  rw [padded, String.toList_append, toList_zeros, toList_digitText, map_digitChar_digitsOf]

end

/-! ### Layouts -/

/-- A text without a sign spells a number. -/
inductive Unsigned : List Char → ℚ → Prop
  | mk {exponent : Int} {whole fraction mantissa tail : List Char} {q : ℚ}
      (hmantissa : MantissaText whole fraction mantissa) (hne : whole ++ fraction ≠ [])
      (htail : ExponentText exponent tail)
      (hvalue : (digitsValue (whole ++ fraction) * 10 ^ (exponent - fraction.length) : ℚ) = q) :
      Unsigned (mantissa ++ tail) q

/-- With a sign it spells a numeral. -/
theorem Unsigned.exists_spells {cs sign : List Char} {q : ℚ} {negative : Bool} (h : Unsigned cs q)
    (hsign : SignText negative sign) :
    ∃ n, Spells (sign ++ cs) n ∧ n.negative = negative ∧ n.magnitude = q := by
  cases h with
  | mk hmantissa hne htail hvalue => exact ⟨_, .mk hsign hmantissa hne htail, rfl, hvalue⟩

namespace Digits.Denotes

variable {d : Digits} {q : ℚ} {layout : Layout}

/-- Digits with a point among them, before them or after them. -/
theorem unsigned_positional (h : d.Denotes q) : Unsigned (d.positional "").toList q := by
  have hdigits := allDigits_map h.lt_ten
  have hne : d.digits.map digitChar ≠ [] := by simpa using h.ne_nil
  have hvalue := h.value
  rw [numberOf] at hvalue
  rw [positional]
  split
  · next hpoint =>
    -- zeros stand between the point and the digits
    obtain ⟨k, hk⟩ : ∃ k, (-d.point).toNat = k := ⟨_, rfl⟩
    have htext : ("0." ++ zeros (-d.point).toNat ++ digitText d.digits).toList =
        (List.replicate 1 '0' ++ '.' :: (List.replicate k '0' ++ d.digits.map digitChar)) ++ [] := by
      rw [hk, String.toList_append, String.toList_append, toList_zeros, toList_digitText,
        List.append_nil, List.append_assoc]
      rfl
    rw [htext]
    refine .mk (.pointed (allDigits_zeros 1) (allDigits_append (allDigits_zeros k) hdigits))
      (List.cons_ne_nil _ _) .none ?_
    rw [digitsValue_zeros_append, digitsValue_zeros_append, ← hvalue, List.length_append,
      List.length_replicate, List.length_map]
    congr 2
    omega
  · next hpoint =>
    split
    · next hcount =>
      -- zeros stand between the digits and the point
      obtain ⟨k, hk⟩ : ∃ k, d.point.toNat - d.digits.length = k := ⟨_, rfl⟩
      have htext : (digitText d.digits ++ zeros (d.point.toNat - d.digits.length) ++ "").toList =
          (d.digits.map digitChar ++ List.replicate k '0') ++ [] := by
        rw [hk, String.append_empty, String.toList_append, toList_zeros, toList_digitText,
          List.append_nil]
      rw [htext]
      refine .mk (.plain (allDigits_append hdigits (allDigits_zeros k))) (by simp [hne]) .none ?_
      have hplaces : d.point - d.digits.length = k := by omega
      rw [List.append_nil, digitsValue_append_zeros, ← hvalue, hplaces, zpow_natCast]
      push_cast
      rw [List.length_nil, Nat.cast_zero, sub_zero, zpow_zero, mul_one]
    · next hcount =>
      have htext : (digitText (d.digits.take d.point.toNat) ++ "." ++
          digitText (d.digits.drop d.point.toNat)).toList =
          ((d.digits.take d.point.toNat).map digitChar ++
            '.' :: (d.digits.drop d.point.toNat).map digitChar) ++ [] := by
        rw [String.toList_append, String.toList_append, toList_digitText, toList_digitText,
          List.append_nil, List.append_assoc]
        rfl
      have hsplit : (d.digits.take d.point.toNat).map digitChar ++
          (d.digits.drop d.point.toNat).map digitChar = d.digits.map digitChar := by
        rw [← List.map_append, List.take_append_drop]
      rw [htext]
      refine .mk (.pointed (allDigits_map fun x hx => h.lt_ten x (List.mem_of_mem_take hx))
        (allDigits_map fun x hx => h.lt_ten x (List.mem_of_mem_drop hx))) (by rwa [hsplit]) .none ?_
      rw [hsplit, ← hvalue, List.length_map, List.length_drop]
      congr 2
      omega

/-- The mantissa has a point only if there are digits behind it. -/
theorem mantissaText_split {first : Nat} {rest : List Nat} (hdigits : ∀ x ∈ first :: rest, x < 10) :
    MantissaText [digitChar first] (rest.map digitChar)
      (digitText [first] ++ (if rest.isEmpty then "" else "." ++ digitText rest)).toList := by
  have hfirst : AllDigits [digitChar first] :=
    allDigits_map fun x hx => hdigits x (List.mem_singleton.mp hx ▸ List.mem_cons_self)
  have hrest : AllDigits (rest.map digitChar) :=
    allDigits_map fun x hx => hdigits x (List.mem_cons_of_mem first hx)
  cases rest with
  | nil =>
    rw [String.toList_append, toList_digitText]
    exact .plain hfirst
  | cons x rest =>
    have htext : (digitText [first] ++ ("." ++ digitText (x :: rest))).toList =
        [digitChar first] ++ '.' :: (x :: rest).map digitChar := by
      rw [String.toList_append, String.toList_append, toList_digitText, toList_digitText]
      rfl
    simp only [List.isEmpty_cons, Bool.false_eq_true, if_false, htext]
    exact .pointed hfirst hrest

/-- The exponent has a sign in front and zeros to fill it up. -/
theorem exponentText_padded {plus : String} (hplus : SignText false plus.toList) (k : Int)
    (width : Nat) :
    ExponentText k
      ('e' :: ((if k < 0 then "-" else plus).toList ++ (padded width k.natAbs).toList)) := by
  obtain ⟨zeros, hpadded⟩ := toList_padded width k.natAbs
  have hdigits : AllDigits (padded width k.natAbs).toList := by
    rw [hpadded]
    exact allDigits_append (allDigits_zeros zeros) fun c hc =>
      Nat.isDigit_of_mem_toDigits (by decide) (by decide) hc
  have hne : (padded width k.natAbs).toList ≠ [] := by
    rw [hpadded]
    simp
  have hvalue : digitsValue (padded width k.natAbs).toList = k.natAbs := by
    rw [hpadded, digitsValue_zeros_append]
    exact Nat.ofDigitChars_ten_toDigits
  have hmarked : ∀ {negative sign}, SignText negative sign →
      (if negative then -(k.natAbs : Int) else k.natAbs) = k →
      ExponentText k ('e' :: (sign ++ (padded width k.natAbs).toList)) := fun hsign hk => by
    have hmarked := ExponentText.marked (.inl rfl) hsign hdigits hne
    rwa [hvalue, hk] at hmarked
  split
  · exact hmarked .minus (by rw [if_pos rfl]; omega)
  · refine hmarked hplus ?_
    rw [if_neg (by decide)]
    omega

/-- Digits with a point after the first and an exponent. -/
theorem unsigned_withExponent (h : d.Denotes q) (hplus : SignText false layout.exponentPlus.toList) :
    Unsigned (d.withExponent layout).toList q := by
  obtain ⟨first, rest, hsplit⟩ := List.exists_cons_of_ne_nil h.ne_nil
  have hdigits := h.lt_ten
  have hvalue := h.value
  rw [hsplit] at hdigits hvalue
  have hmantissa := mantissaText_split hdigits
  have hexponent := exponentText_padded hplus d.scientific layout.exponentWidth
  have htext : (d.withExponent layout).toList =
      (digitText [first] ++ (if rest.isEmpty then "" else "." ++ digitText rest)).toList ++
        'e' :: ((if d.scientific < 0 then "-" else layout.exponentPlus).toList ++
          (padded layout.exponentWidth d.scientific.natAbs).toList) := by
    simp only [withExponent, hsplit, String.toList_append, List.append_assoc]
    rfl
  rw [htext]
  refine .mk hmantissa (by simp) hexponent ?_
  rw [← hvalue, numberOf, scientific, List.length_map, List.length_cons]
  congr 2
  omega

end Digits.Denotes

/-- The text of a double that is not zero is that of its shortest digits, with a sign. -/
theorem render_of_finite (layout : Layout) {x : Float} {s : Sign} {m : Nat} {e : Int}
    {hpos : 0 < m} (hx : x.toModel.unpack = .finite s m e hpos) :
    layout.render x = (if isMinus s then "-" else "") ++
      (if layout.isPositional (shortest layout.tie m e).scientific then
        (shortest layout.tie m e).positional layout.integerSuffix
        else (shortest layout.tie m e).withExponent layout) := by
  rw [Layout.render, Binary.ofFloat_eq, hx]
  simp [Binary.ofUnpacked, hpos.ne']

/-- A double that is not zero is written as a numeral, which denotes what its shortest digits do. -/
theorem exists_spells_render (layout : Layout) (hsuffix : layout.integerSuffix = "")
    (hplus : SignText false layout.exponentPlus.toList) {x : Float} {s : Sign} {m : Nat} {e : Int}
    {hpos : 0 < m} (hx : x.toModel.unpack = .finite s m e hpos) {q : ℚ}
    (hdenotes : (shortest layout.tie m e).Denotes q) :
    ∃ n, Spells (layout.render x).toList n ∧ n.negative = isMinus s ∧ n.magnitude = q := by
  have hunsigned : Unsigned (if layout.isPositional (shortest layout.tie m e).scientific then
      (shortest layout.tie m e).positional layout.integerSuffix
      else (shortest layout.tie m e).withExponent layout).toList q := by
    split
    · rw [hsuffix]
      exact hdenotes.unsigned_positional
    · exact hdenotes.unsigned_withExponent hplus
  have hsign : SignText (isMinus s) (if isMinus s then "-" else "").toList := by
    cases s
    · exact .minus
    · exact .none
  obtain ⟨n, hspells, hnegative, hmagnitude⟩ := hunsigned.exists_spells hsign
  refine ⟨n, ?_, hnegative, hmagnitude⟩
  rw [render_of_finite layout hx, String.toList_append]
  exact hspells

end Decimal

/-- Both zeros are equal to zero. -/
theorem beq_zero_of_zero {x : Float} {s : Sign} (hx : x.toModel.unpack = .zero s) :
    (x == 0.0) = true := by
  have hzero : (0.0 : Float).toModel.unpack = .zero .positive := rfl
  rw [beq_iff_compare, hx, hzero]
  rfl

/-- What has a mantissa is not. -/
theorem not_beq_zero_of_finite {x : Float} {s : Sign} {m : Nat} {e : Int} {hpos : 0 < m}
    (hx : x.toModel.unpack = .finite s m e hpos) : ¬ (x == 0.0) = true := by
  have hzero : (0.0 : Float).toModel.unpack = .zero .positive := rfl
  rw [beq_iff_compare, hx, hzero]
  cases s <;> exact nofun

/-- Zero is written without a sign. -/
theorem numberText_of_zero {x : Float} {s : Sign} (hx : x.toModel.unpack = .zero s) :
    numberText x = "0" := by
  rw [numberText, Decimal.Layout.render, Decimal.Binary.ofFloat_eq, hx]
  cases s <;> rfl

/-- **Numbers that are written read back.** The text of a finite double is read as this double, and
that of a zero as the positive one. -/
theorem parse?_numberText {x : Float} (hx : x.isFinite = true) :
    Decimal.parse? (numberText x) = some (if x == 0.0 then 0.0 else x) := by
  rcases unpack_cases hx with ⟨s, hu⟩ | ⟨s, m, e, h, hu⟩
  · rw [numberText_of_zero hu, if_pos (beq_zero_of_zero hu)]
    rfl
  · obtain ⟨q, hroom, hdenotes⟩ := Decimal.exists_denotes_shortest wordLayout.tie h
    obtain ⟨n, hspells, hnegative, hmagnitude⟩ :=
      Decimal.exists_spells_render wordLayout rfl .plus hu hdenotes
    have hread : n.toFloat = x := by
      have hroom : InRoom m e n.magnitude := hmagnitude ▸ hroom
      refine eq_of_unpack_eq (((Decimal.Numeral.unpack_toFloat_iff h).mpr ⟨?_, hroom⟩).trans hu.symm)
      rw [hnegative, signOf_isMinus]
    rw [Decimal.parse?, numberText, hspells.parse?_eq, Option.map_some, hread,
      if_neg (not_beq_zero_of_finite hu)]

end LogoEngine
