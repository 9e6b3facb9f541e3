import LogoEngine.Failure.Code
import Mathlib

/-!
# Messages of errors

The message of an error is its template with the arguments put in for their places. A message
**quotes** its arguments if each stands there as it is given. The arguments are put in one after the
other, and what is put in is searched for the places of those that follow: so the message quotes what
the arguments become by this (`settled`), and the arguments themselves if none of them has the place
of a later one in it.

Main statement: `ErrorCode.format_eq_quoted`.
-/

namespace LogoEngine

/-! ### Replacing -/

namespace Text

variable {pattern replacement text before after : List Char} {c : Char} {skip : Nat}

/-- A character that is not in the pattern separates what is before it from what is after it. -/
theorem isPrefixOf_append_cons (hc : c ∉ pattern) :
    pattern.isPrefixOf (before ++ c :: after) = pattern.isPrefixOf before := by
  rw [Bool.eq_iff_iff, List.isPrefixOf_iff_prefix, List.isPrefixOf_iff_prefix]
  refine ⟨fun h => ?_, fun h => h.trans (List.prefix_append ..)⟩
  refine List.prefix_of_prefix_length_le h (List.prefix_append ..) ?_
  by_contra hlt
  have hthrough : before ++ [c] <+: pattern := by
    refine List.prefix_of_prefix_length_le ⟨after, List.append_assoc ..⟩ h ?_
    rw [List.length_append, List.length_singleton]
    omega
  exact hc (hthrough.mem (List.mem_append_right _ (List.mem_singleton_self c)))

theorem replaceFrom_append_cons (hpattern : pattern ≠ []) (hc : c ∉ pattern)
    (hskip : skip ≤ before.length) :
    replaceFrom pattern replacement skip (before ++ c :: after) =
      replaceFrom pattern replacement skip before ++ c :: replaceAll pattern replacement after := by
  induction before generalizing skip with
  | nil =>
    obtain rfl : skip = 0 := Nat.le_zero.mp hskip
    have hnone : ¬ pattern.isPrefixOf ([] ++ c :: after) = true := by
      rw [isPrefixOf_append_cons hc, List.isPrefixOf_iff_prefix, List.prefix_nil]
      exact hpattern
    exact if_neg hnone
  | cons x before ih =>
    cases skip with
    | succ skip => exact ih (Nat.le_of_succ_le_succ hskip)
    | zero =>
      have hprefix : pattern.isPrefixOf (x :: (before ++ c :: after)) =
          pattern.isPrefixOf (x :: before) := by
        rw [← List.cons_append, isPrefixOf_append_cons hc]
      rw [List.cons_append, replaceFrom, replaceFrom, hprefix]
      split
      · next hoccurs =>
        have hlength := (List.isPrefixOf_iff_prefix.mp hoccurs).length_le
        rw [List.length_cons] at hlength
        rw [ih (by omega), List.append_assoc]
      · rw [ih (Nat.zero_le _), List.cons_append]

theorem replaceAll_append_cons (hpattern : pattern ≠ []) (hc : c ∉ pattern) :
    replaceAll pattern replacement (before ++ c :: after) =
      replaceAll pattern replacement before ++ c :: replaceAll pattern replacement after :=
  replaceFrom_append_cons hpattern hc (Nat.zero_le _)

theorem replaceFrom_length : replaceFrom pattern replacement text.length text = [] := by
  induction text with
  | nil => rfl
  | cons c rest ih => exact ih

/-- The pattern alone is replaced as a whole. -/
theorem replaceAll_self (hpattern : pattern ≠ []) :
    replaceAll pattern replacement pattern = replacement := by
  obtain ⟨c, rest, rfl⟩ := List.exists_cons_of_ne_nil hpattern
  have hwhole : (c :: rest).isPrefixOf (c :: rest) = true :=
    List.isPrefixOf_iff_prefix.mpr List.prefix_rfl
  rw [replaceAll, replaceFrom, if_pos hwhole, List.length_cons, Nat.add_sub_cancel,
    replaceFrom_length, List.append_nil]

/-- Where the pattern does not occur, nothing is replaced. -/
theorem replaceAll_of_not_infix (h : ¬ pattern <:+: text) :
    replaceAll pattern replacement text = text := by
  rw [replaceAll]
  induction text with
  | nil => rfl
  | cons c rest ih =>
    rw [List.infix_cons_iff, not_or] at h
    rw [replaceFrom, if_neg (mt List.isPrefixOf_iff_prefix.mp h.1), ih h.2]

end Text

namespace ErrorCode

/-! ### Templates -/

/-- A piece of a template: a character that stands for itself, or the place of an argument. -/
inductive Piece where
  | char (c : Char)
  | place (index : Nat)
deriving DecidableEq, Repr

/-- The text of the place of an argument; the first argument has the number one. -/
def placeText (index : Nat) : List Char :=
  '%' :: Nat.toDigits 10 (index + 1)

/-- The text of a piece. -/
def Piece.text : Piece → List Char
  | char c => [c]
  | place index => placeText index

/-- What is written for a piece: for a place its argument, as it is. A place that has no argument is
left as it is. -/
def Piece.quote (args : List String) : Piece → List Char
  | char c => [c]
  | place index => (args[index]?).elim (placeText index) String.toList

/-- The pieces of a template. Places have one digit, which is not zero. -/
def pieces : List Char → List Piece
  | '%' :: d :: rest =>
    if '1' ≤ d ∧ d ≤ '9' then .place (d.toNat - '1'.toNat) :: pieces rest
    else .char '%' :: pieces (d :: rest)
  | c :: rest => .char c :: pieces rest
  | [] => []

/-- A template that **quotes** its arguments. -/
def quoted (code : ErrorCode) (args : List String) : String :=
  String.ofList ((pieces code.template.toList).flatMap (Piece.quote args))

/-- The arguments, each with those that follow put in for their places; the first one has the number
`number`. -/
def settled (number : Nat) : List String → List String
  | [] => []
  | arg :: args =>
    String.ofList (fill (number + 1) args arg.toList) :: settled (number + 1) args

/-- A character that is in no place. -/
def Separates (c : Char) : Prop :=
  c ≠ '%' ∧ c.isDigit = false

instance (c : Char) : Decidable (Separates c) :=
  inferInstanceAs (Decidable (_ ∧ _))

/-- Whether a piece is a character. -/
def Piece.isChar : Piece → Bool
  | char _ => true
  | place _ => false

/-- Places do not meet each other, and no other character can be taken for a part of one. -/
def ArePlaced : List Piece → Prop
  | [] => True
  | .char c :: rest => Separates c ∧ ArePlaced rest
  | .place index :: rest => index < 9 ∧ (∀ p ∈ rest.head?, p.isChar = true) ∧ ArePlaced rest

instance decidableArePlaced : ∀ ps, Decidable (ArePlaced ps)
  | [] => .isTrue trivial
  | .char c :: rest =>
    have := decidableArePlaced rest
    inferInstanceAs (Decidable (Separates c ∧ ArePlaced rest))
  | .place index :: rest =>
    have := decidableArePlaced rest
    inferInstanceAs (Decidable (index < 9 ∧ (∀ p ∈ rest.head?, p.isChar = true) ∧ ArePlaced rest))

section

variable {c : Char} {i j : Nat} {text before after : List Char} {args : List String}

/-- The places of the first nine arguments. -/
theorem placeText_eq : ∀ index < 9, placeText index = ['%', Char.ofNat ('1'.toNat + index)] := by
  decide

/-- Splitting a template loses nothing. -/
theorem flatMap_text_pieces (text : List Char) : (pieces text).flatMap Piece.text = text := by
  have hdigit : ∀ d, '1' ≤ d ∧ d ≤ '9' → placeText (d.toNat - '1'.toNat) = ['%', d] := by
    intro d ⟨hlow, hhigh⟩
    have hlow : '1'.toNat ≤ d.toNat := hlow
    have hhigh : d.toNat ≤ 57 := hhigh
    have hone : '1'.toNat = 49 := rfl
    rw [placeText_eq _ (by omega), Nat.add_sub_cancel' hlow, Char.ofNat_toNat]
  fun_induction pieces text with
  | case1 d rest hd ih => rw [List.flatMap_cons, ih, Piece.text, hdigit d hd]; rfl
  | case2 d rest hd ih => rw [List.flatMap_cons, ih]; rfl
  | case3 c rest hc ih => rw [List.flatMap_cons, ih]; rfl
  | case4 => rfl

theorem arePlaced_template (code : ErrorCode) : ArePlaced (pieces code.template.toList) := by
  cases code <;> decide +kernel

theorem Separates.not_mem_placeText (hc : Separates c) (index : Nat) : c ∉ placeText index := by
  intro hmem
  rcases List.mem_cons.mp hmem with rfl | hmem
  · exact hc.1 rfl
  · have hdigit := Nat.isDigit_of_mem_toDigits (by decide) (by decide) hmem
    exact absurd (hdigit.symm.trans hc.2) nofun

/-- No place of one digit has another one in it. -/
theorem not_placeText_infix : ∀ i < 9, ∀ j < 9, i ≠ j → ¬ placeText i <:+: placeText j := by
  decide

theorem placeText_ne_nil (index : Nat) : placeText index ≠ [] :=
  List.cons_ne_nil _ _

/-! ### Putting in the arguments -/

theorem fill_cons (number : Nat) (arg : String) (args : List String) (text : List Char) :
    fill (number + 1) (arg :: args) text =
      fill (number + 2) args (Text.replaceAll (placeText number) arg.toList text) :=
  rfl

theorem fill_nil (number : Nat) (args : List String) : fill number args [] = [] := by
  induction args generalizing number with
  | nil => rfl
  | cons arg args ih => exact ih (number + 1)

/-- What is on both sides of a character that is in no place is filled by itself. -/
theorem fill_append_cons (hc : Separates c) (number : Nat) (args : List String) :
    fill (number + 1) args (before ++ c :: after) =
      fill (number + 1) args before ++ c :: fill (number + 1) args after := by
  induction args generalizing number before after with
  | nil => rfl
  | cons arg args ih =>
    rw [fill_cons, fill_cons, fill_cons,
      Text.replaceAll_append_cons (placeText_ne_nil number) (hc.not_mem_placeText number)]
    exact ih (number + 1)

theorem fill_char (hc : Separates c) (text : List Char) (args : List String) :
    fill 1 args (c :: text) = c :: fill 1 args text := by
  have hsplit : fill 1 args ([] ++ c :: text) = fill 1 args [] ++ c :: fill 1 args text :=
    fill_append_cons hc 0 args
  rwa [fill_nil] at hsplit

/-- A place is filled with its argument, and in this argument those that follow are put in. -/
theorem fill_placeText (hle : i ≤ j) (hj : j < 9) (args : List String) :
    fill (i + 1) args (placeText j) =
      ((settled (i + 1) args)[j - i]?).elim (placeText j) String.toList := by
  induction args generalizing i with
  | nil => rfl
  | cons arg args ih =>
    rw [fill_cons, settled]
    rcases hle.eq_or_lt with rfl | hlt
    · rw [Text.replaceAll_self (placeText_ne_nil i), Nat.sub_self, List.getElem?_cons_zero]
      exact String.toList_ofList.symm
    · have hnone := not_placeText_infix i (by omega) j hj (by omega)
      have hrest : j - i = j - (i + 1) + 1 := by omega
      rw [Text.replaceAll_of_not_infix hnone, hrest, List.getElem?_cons_succ]
      exact ih hlt

/-- **A template is filled piece by piece.** -/
theorem fill_flatMap_text {ps : List Piece} (hplaced : ArePlaced ps) (args : List String) :
    fill 1 args (ps.flatMap Piece.text) = ps.flatMap (Piece.quote (settled 1 args)) := by
  induction ps with
  | nil => exact fill_nil 1 args
  | cons p ps ih =>
    rw [List.flatMap_cons, List.flatMap_cons]
    cases p with
    | char c =>
      obtain ⟨hc, hplaced⟩ := hplaced
      have hfirst := fill_char hc (ps.flatMap Piece.text) args
      rw [ih hplaced] at hfirst
      exact hfirst
    | place index =>
      obtain ⟨hindex, hnext, hplaced⟩ := hplaced
      have hplace : fill 1 args (placeText index) = Piece.quote (settled 1 args) (.place index) :=
        fill_placeText (Nat.zero_le index) hindex args
      rw [← ih hplaced, ← hplace]
      -- a character that is in no place follows, or nothing
      cases ps with
      | nil =>
        rw [List.flatMap_nil, List.append_nil, fill_nil, List.append_nil]
        rfl
      | cons p ps =>
        cases p with
        | place i => exact absurd (hnext _ rfl) nofun
        | char c =>
          have hfirst := fill_char hplaced.1 (ps.flatMap Piece.text) args
          rw [List.flatMap_cons]
          exact (fill_append_cons hplaced.1 0 args).trans (congrArg _ hfirst.symm)

/-- A text without the places of the arguments stays as it is. -/
theorem fill_of_not_infix (hnone : ∀ j, i ≤ j → j < i + args.length → ¬ placeText j <:+: text) :
    fill (i + 1) args text = text := by
  induction args generalizing i with
  | nil => rfl
  | cons arg args ih =>
    rw [List.length_cons] at hnone
    rw [fill_cons, Text.replaceAll_of_not_infix (hnone i le_rfl (by omega))]
    exact ih fun j hle hlt => hnone j (by omega) (by omega)

/-- No argument has the place of a later one in it. -/
def HasNoLaterPlace (args : List String) : Prop :=
  ∀ (i j : Nat) (arg : String), args[i]? = some arg → i < j → j < args.length →
    ¬ placeText j <:+: arg.toList

theorem settled_eq_self {number : Nat}
    (hnone : ∀ (i j : Nat) (arg : String), args[i]? = some arg → i < j → j < args.length →
      ¬ placeText (number + j) <:+: arg.toList) : settled (number + 1) args = args := by
  induction args generalizing number with
  | nil => rfl
  | cons arg args ih =>
    have hfirst : fill (number + 1 + 1) args arg.toList = arg.toList := by
      refine fill_of_not_infix fun j hle hlt => ?_
      have hnone := hnone 0 (j - number) arg rfl (by omega) (by rw [List.length_cons]; omega)
      rwa [Nat.add_sub_cancel' (by omega)] at hnone
    rw [settled, hfirst, String.ofList_toList]
    congr 1
    refine ih fun i j other hother hlt hlength => ?_
    have hnone := hnone (i + 1) (j + 1) other hother (by omega) (by rw [List.length_cons]; omega)
    rwa [← Nat.add_assoc, Nat.add_right_comm] at hnone

end

/-- **Messages of errors.** A message quotes what its arguments become if in each of them those that
follow are put in for their places. So it quotes the arguments themselves if none has the place of a
later one in it. -/
theorem format_eq_quoted (code : ErrorCode) (args : List String) :
    code.format args = code.quoted (settled 1 args) ∧
      (HasNoLaterPlace args → code.format args = code.quoted args) := by
  have hformat : code.format args = code.quoted (settled 1 args) := by
    have hfill := fill_flatMap_text (arePlaced_template code) args
    rw [flatMap_text_pieces] at hfill
    rw [format, hfill, quoted]
  refine ⟨hformat, fun hnone => ?_⟩
  have hsettled : settled (0 + 1) args = args := by
    refine settled_eq_self fun i j arg harg hlt hlength => ?_
    rw [Nat.zero_add]
    exact hnone i j arg harg hlt hlength
  rw [hformat, hsettled]

/-- The place of the second argument in the first one is taken for that of the template. The place of
the first one in the second is left alone. -/
theorem doesntLike_places :
    (doesntLike.format ["%2", "0"] = "0 doesn't like 0 as input" ∧
      doesntLike.quoted ["%2", "0"] = "%2 doesn't like 0 as input") ∧
    HasNoLaterPlace ["0", "%1"] ∧
      doesntLike.format ["0", "%1"] = "0 doesn't like %1 as input" := by
  have hnone : HasNoLaterPlace ["0", "%1"] := by
    intro i j arg harg hlt hlength
    have hlength : j < 2 := hlength
    obtain ⟨rfl, rfl⟩ : i = 0 ∧ j = 1 := by omega
    obtain rfl : "0" = arg := Option.some_inj.mp harg
    decide
  have hquoted : doesntLike.quoted ["0", "%1"] = "0 doesn't like %1 as input" := by decide +kernel
  exact ⟨by decide +kernel, hnone, ((doesntLike.format_eq_quoted _).2 hnone).trans hquoted⟩

end ErrorCode

end LogoEngine
