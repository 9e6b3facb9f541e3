import LogoEngine.Code.Check
import Mathlib.Data.List.Nodup
import Mathlib.Data.List.Forall2

/-!
# Well-typed code

What the structural check looks for, said without the check: an instruction is **typed** when its
registers are declared with the types it needs, a helper call when the types of its arguments are
**accepted** by the signature, and the end of a block when it returns a datum or branches on a
truth value to blocks that exist.

Main statement: `Routine.check_eq_ok_iff`, the check passes exactly if the labels are distinct,
the entry exists and every block is typed.
-/

namespace LogoEngine

/-! ### Sequences of checks -/

/-- A sequence of checks passes when both do. -/
theorem bind_eq_ok_iff {ε α β : Type} {x : Except ε α} {f : α → Except ε β} {b : β} :
    (x >>= f) = .ok b ↔ ∃ a, x = .ok a ∧ f a = .ok b := by
  cases x with
  | error e => simp [bind, Except.bind]
  | ok a => simp [bind, Except.bind]

/-- A check without a result is followed by another. -/
theorem seq_eq_ok_iff {ε β : Type} {x : Except ε Unit} {f : Unit → Except ε β} {b : β} :
    (x >>= f) = .ok b ↔ x = .ok () ∧ f () = .ok b := by
  rw [bind_eq_ok_iff]
  exact ⟨fun ⟨_, h⟩ => h, fun h => ⟨(), h⟩⟩

/-! ### Declared types -/

/-- A register is declared with a type. -/
def Declares (types : Array Ty) (r : Reg) (ty : Ty) : Prop :=
  types[r.index]? = some ty

theorem Declares.unique {types : Array Ty} {r : Reg} {s t : Ty} (hs : Declares types r s)
    (ht : Declares types r t) : s = t :=
  Option.some.inj (hs.symm.trans ht)

theorem Declares.lt_size {types : Array Ty} {r : Reg} {ty : Ty} (h : Declares types r ty) :
    r.index < types.size :=
  (Array.getElem?_eq_some_iff.mp h).1

/-- Registers keep their types as more are declared. -/
theorem Declares.mono {types types' : Array Ty} (hle : types.toList <+: types'.toList) {r : Reg}
    {ty : Ty} (h : Declares types r ty) : Declares types' r ty := by
  obtain ⟨rest, hrest⟩ := hle
  have hlt : r.index < types.toList.length := by simpa using h.lt_size
  unfold Declares at h ⊢
  rw [← Array.getElem?_toList, ← hrest, List.getElem?_append_left hlt, Array.getElem?_toList, h]

/-- What is related elementwise has a partner for every element. -/
theorem exists_mem_of_forall₂ {α β : Type} {R : α → β → Prop} {as : List α} {bs : List β}
    (h : List.Forall₂ R as bs) {a : α} (ha : a ∈ as) : ∃ b ∈ bs, R a b := by
  induction h with
  | nil => cases ha
  | cons hr _ ih =>
    rcases List.mem_cons.mp ha with rfl | ha
    · exact ⟨_, List.mem_cons_self, hr⟩
    · obtain ⟨b, hb, hab⟩ := ih ha
      exact ⟨b, List.mem_cons_of_mem _ hb, hab⟩

/-! ### Signatures -/

/-- A signature accepts arguments of the given types: the parameters first, then any number of
further ones if there is a type for them. -/
def Signature.acceptsFrom (rest : Option Ty) : List Ty → List Ty → Prop
  | param :: params, ty :: tys => ty = param ∧ acceptsFrom rest params tys
  | [], [] => True
  | [], tys => ∃ ty, rest = some ty ∧ ∀ t ∈ tys, t = ty
  | _ :: _, [] => False

/-- A signature accepts arguments of the given types. -/
def Signature.Accepts (s : Signature) (tys : List Ty) : Prop :=
  acceptsFrom s.rest s.params tys

private theorem length_of_acceptsFrom {rest : Option Ty} {params tys : List Ty}
    (h : Signature.acceptsFrom rest params tys) :
    params.length ≤ tys.length ∧ (rest = none → params.length = tys.length) := by
  induction params generalizing tys with
  | nil =>
    cases tys with
    | nil => simp
    | cons ty tys =>
      obtain ⟨t, ht, -⟩ := h
      simp [ht]
  | cons param params ih =>
    cases tys with
    | nil => cases h
    | cons ty tys => simpa using ih h.2

/-- Accepted arguments are as many as allowed. -/
theorem Signature.Accepts.allows {s : Signature} {tys : List Ty} (h : s.Accepts tys) :
    s.allows tys.length = true := by
  obtain ⟨hle, heq⟩ := length_of_acceptsFrom h
  cases hrest : s.rest with
  | none => simp [Signature.allows, heq hrest]
  | some ty => simp [Signature.allows, hle, hrest]

/-! ### Typed instructions and blocks -/

/-- An instruction whose registers have the types it needs, in code with `slots` constants. -/
def Instr.Typed (types : Array Ty) (slots : Nat) : Instr → Prop
  | real dst _ => Declares types dst .real
  | truth dst _ | atBlock dst _ => Declares types dst .truth
  | const dst slot => Declares types dst .datum ∧ slot < slots
  | arith dst _ lhs rhs =>
    Declares types dst .real ∧ Declares types lhs .real ∧ Declares types rhs .real
  | neg dst src => Declares types dst .real ∧ Declares types src .real
  | compare dst _ lhs rhs =>
    Declares types dst .truth ∧ Declares types lhs .real ∧ Declares types rhs .real
  | isInt dst src => Declares types dst .truth ∧ Declares types src .real
  | not dst src => Declares types dst .truth ∧ Declares types src .truth
  | and dst lhs rhs =>
    Declares types dst .truth ∧ Declares types lhs .truth ∧ Declares types rhs .truth
  | move dst src => ∃ ty, Declares types dst ty ∧ Declares types src ty
  | call dst helper args =>
    (∃ tys, List.Forall₂ (Declares types) args tys ∧ helper.signature.Accepts tys) ∧
      ∀ d, dst = some d → ∃ ty, helper.signature.ret = some ty ∧ Declares types d ty

/-- An end of a block that returns a datum or goes to labels that exist. -/
def Exit.Typed (types : Array Ty) (labels : List Label) : Exit → Prop
  | ret value => Declares types value .datum
  | jump target => target ∈ labels
  | branch cond yes no => Declares types cond .truth ∧ yes ∈ labels ∧ no ∈ labels
  | unreachable => True

/-- A block that is typed throughout. -/
structure Block.Typed (code : Routine) (b : Block) : Prop where
  body : ∀ i ∈ b.body, i.Typed code.types code.constants.size
  exit : b.exit.Typed code.types code.labels

namespace Routine

variable (code : Routine)

/-! ### The parts of the check -/

theorem typeOf_eq_ok_iff {r : Reg} {ty : Ty} :
    code.typeOf r = .ok ty ↔ Declares code.types r ty := by
  unfold typeOf Declares
  split
  · next found h => rw [h]; simp
  · next h => rw [h]; simp

theorem expect_eq_ok_iff {instr : Instr} {r : Reg} {want : Ty} {u : Unit} :
    code.expect instr r want = .ok u ↔ Declares code.types r want := by
  unfold expect
  rw [bind_eq_ok_iff]
  constructor
  · rintro ⟨got, hgot, h⟩
    rw [typeOf_eq_ok_iff] at hgot
    split at h
    · next heq => exact heq ▸ hgot
    · cases h
  · intro h
    exact ⟨want, (code.typeOf_eq_ok_iff).mpr h, by simp⟩

/-- From a position on, arguments pass when the parameters from there on accept their types. -/
theorem expectArgs_eq_ok_iff {instr : Instr} {s : Signature} {index : Nat} {args : List Reg}
    {u : Unit} (hcount : s.params.length ≤ index + args.length)
    (hrest : s.rest = none → s.params.length = index + args.length) :
    code.expectArgs instr s index args = .ok u ↔
      ∃ tys, List.Forall₂ (Declares code.types) args tys ∧
        Signature.acceptsFrom s.rest (s.params.drop index) tys := by
  induction args generalizing index with
  | nil =>
    have hnil : s.params.drop index = [] := List.drop_eq_nil_of_le (by simpa using hcount)
    rw [hnil]
    exact ⟨fun _ => ⟨[], .nil, trivial⟩, fun _ => rfl⟩
  | cons r rest ih =>
    -- the parameter at this position is the first of those left, or the type of further arguments
    by_cases hlt : index < s.params.length
    · have hdrop : s.params.drop index = s.params[index] :: s.params.drop (index + 1) :=
        List.drop_eq_getElem_cons hlt
      have hparam : s.paramAt index = some s.params[index] := by
        simp [Signature.paramAt, List.getElem?_eq_getElem hlt]
      have ih' : code.expectArgs instr s (index + 1) rest = .ok u ↔ _ :=
        ih (by simp only [List.length_cons] at hcount; omega)
          (fun h => by have := hrest h; simp only [List.length_cons] at this; omega)
      simp only [expectArgs, hparam, bind_eq_ok_iff, expect_eq_ok_iff, ih', hdrop]
      constructor
      · rintro ⟨-, hr, tys, htys, hacc⟩
        exact ⟨_ :: tys, .cons hr htys, rfl, hacc⟩
      · rintro ⟨tys, htys, hacc⟩
        cases htys with
        | cons hr htys =>
          obtain ⟨rfl, hacc⟩ := hacc
          exact ⟨(), hr, _, htys, hacc⟩
    · have hnil : s.params.drop index = [] := List.drop_eq_nil_of_le (by omega)
      have hnil' : s.params.drop (index + 1) = [] := List.drop_eq_nil_of_le (by omega)
      obtain ⟨ty, hty⟩ : ∃ ty, s.rest = some ty := by
        cases hr : s.rest with
        | none => have := hrest hr; simp only [List.length_cons] at this; omega
        | some ty => exact ⟨ty, rfl⟩
      have hparam : s.paramAt index = some ty := by
        rw [Signature.paramAt, List.getElem?_eq_none (by omega), hty]
      have ih' : code.expectArgs instr s (index + 1) rest = .ok u ↔ _ :=
        ih (by omega) (by simp [hty])
      simp only [expectArgs, hparam, bind_eq_ok_iff, expect_eq_ok_iff, ih', hnil, hnil', hty]
      constructor
      · rintro ⟨-, hr, tys, htys, hacc⟩
        refine ⟨ty :: tys, .cons hr htys, ty, rfl, fun t ht => ?_⟩
        rcases List.mem_cons.mp ht with rfl | ht
        · rfl
        · cases tys with
          | nil => cases ht
          | cons t' tys =>
            obtain ⟨ty', heq, hall⟩ := hacc
            rw [Option.some.inj heq]
            exact hall t ht
      · rintro ⟨tys, htys, hacc⟩
        cases htys with
        | cons hr htys =>
          obtain ⟨ty', heq, hall⟩ := hacc
          obtain rfl := Option.some.inj heq
          refine ⟨(), hall _ List.mem_cons_self ▸ hr, _, htys, ?_⟩
          cases htys with
          | nil => trivial
          | cons _ _ => exact ⟨ty, rfl, fun t ht => hall t (List.mem_cons_of_mem _ ht)⟩

private theorem call_args_eq_ok_iff (instr : Instr) {s : Signature} {args : List Reg} :
    (s.allows args.length = true ∧ code.expectArgs instr s 0 args = .ok ()) ↔
      ∃ tys, List.Forall₂ (Declares code.types) args tys ∧ s.Accepts tys := by
  constructor
  · rintro ⟨hallows, h⟩
    simp only [Signature.allows, Bool.and_eq_true, decide_eq_true_eq, Bool.or_eq_true,
      beq_iff_eq] at hallows
    have hrest : s.rest = none → s.params.length = 0 + args.length := by
      intro hnone
      simp only [hnone, Option.isSome_none, Bool.false_eq_true, false_or] at hallows
      omega
    simpa [Signature.Accepts] using (code.expectArgs_eq_ok_iff (by omega) hrest).mp h
  · rintro ⟨tys, htys, hacc⟩
    obtain ⟨hle, heq⟩ := length_of_acceptsFrom hacc
    have hlen : args.length = tys.length := htys.length_eq
    refine ⟨hlen ▸ hacc.allows, (code.expectArgs_eq_ok_iff (by omega) ?_).mpr ⟨tys, htys, hacc⟩⟩
    intro hnone
    have := heq hnone
    omega

/-- The check of an instruction passes exactly if the instruction is typed. -/
theorem checkInstr_eq_ok_iff {i : Instr} {u : Unit} :
    code.checkInstr i = .ok u ↔ i.Typed code.types code.constants.size := by
  cases i with
  | const dst slot =>
    simp only [checkInstr, Instr.Typed, bind_eq_ok_iff, expect_eq_ok_iff, exists_const]
    refine and_congr_right fun _ => ?_
    split <;> simp_all
  | move dst src =>
    simp only [checkInstr, Instr.Typed, bind_eq_ok_iff, typeOf_eq_ok_iff, expect_eq_ok_iff]
  | call dst helper args =>
    rw [Instr.Typed, ← code.call_args_eq_ok_iff (.call dst helper args)]
    unfold checkInstr
    by_cases hallows : helper.signature.allows args.length = true
    · simp only [hallows, if_true, seq_eq_ok_iff, true_and]
      refine and_congr_right fun _ => ?_
      cases dst with
      | none => simp
      | some d =>
        cases hret : helper.signature.ret with
        | none => simp
        | some ty => simp [expect_eq_ok_iff]
    · simp [hallows, bind, Except.bind]
  | _ => simp only [checkInstr, Instr.Typed, bind_eq_ok_iff, expect_eq_ok_iff, exists_const]

/-- The check of the end of a block passes exactly if the end is typed. -/
theorem checkExit_eq_ok_iff {block : Label} {exit : Exit} {u : Unit} :
    code.checkExit block exit = .ok u ↔ exit.Typed code.types code.labels := by
  have htarget : ∀ {target : Label} {u : Unit},
      code.checkTarget block target = .ok u ↔ target ∈ code.labels := by
    intro target u
    unfold checkTarget
    split <;> simp_all
  cases exit with
  | ret value =>
    simp only [checkExit, Exit.Typed, bind_eq_ok_iff, typeOf_eq_ok_iff]
    constructor
    · rintro ⟨ty, hty, h⟩
      split at h
      · next heq => exact heq ▸ hty
      · cases h
    · intro h
      exact ⟨.datum, h, by simp⟩
  | jump target => exact htarget
  | branch cond yes no =>
    simp only [checkExit, Exit.Typed, bind_eq_ok_iff, typeOf_eq_ok_iff]
    constructor
    · rintro ⟨ty, hty, h⟩
      split at h
      · next heq =>
        simp only [seq_eq_ok_iff, htarget] at h
        exact ⟨heq ▸ hty, h.2⟩
      · cases h
    · rintro ⟨hcond, hyes, hno⟩
      refine ⟨.truth, hcond, ?_⟩
      simp only [if_true, seq_eq_ok_iff, htarget]
      exact ⟨trivial, hyes, hno⟩
  | unreachable => simp [checkExit, Exit.Typed]

private theorem checkInstrs_eq_ok_iff {is : List Instr} {u : Unit} :
    code.checkInstrs is = .ok u ↔ ∀ i ∈ is, i.Typed code.types code.constants.size := by
  induction is with
  | nil => simp [checkInstrs]
  | cons i rest ih =>
    simp only [checkInstrs, seq_eq_ok_iff, ih, List.forall_mem_cons, checkInstr_eq_ok_iff]

private theorem checkBlocks_eq_ok_iff {bs : List Block} {u : Unit} :
    code.checkBlocks bs = .ok u ↔ ∀ b ∈ bs, b.Typed code := by
  induction bs with
  | nil => simp [checkBlocks]
  | cons b rest ih =>
    simp only [checkBlocks, seq_eq_ok_iff, ih, List.forall_mem_cons, checkInstrs_eq_ok_iff,
      checkExit_eq_ok_iff]
    exact ⟨fun ⟨h, h', hr⟩ => ⟨⟨h, h'⟩, hr⟩, fun ⟨⟨h, h'⟩, hr⟩ => ⟨h, h', hr⟩⟩

private theorem firstDuplicate_eq_none_iff {seen ls : List Label} :
    firstDuplicate seen ls = none ↔ ls.Nodup ∧ ∀ l ∈ ls, l ∉ seen := by
  induction ls generalizing seen with
  | nil => simp [firstDuplicate]
  | cons l rest ih =>
    by_cases hl : l ∈ seen
    · simp [firstDuplicate, hl]
    · simp only [firstDuplicate, hl, if_false, ih, List.nodup_cons, List.mem_cons, not_or,
        forall_eq_or_imp, not_false_eq_true, true_and]
      constructor
      · rintro ⟨hnd, h⟩
        exact ⟨⟨fun hm => (h l hm).1 rfl, hnd⟩, fun x hx => (h x hx).2⟩
      · rintro ⟨⟨hm, hnd⟩, h⟩
        exact ⟨hnd, fun x hx => ⟨fun heq => hm (heq ▸ hx), h x hx⟩⟩

/-- **What the check accepts.** The labels are distinct, the entry exists, and every block is
typed. -/
theorem check_eq_ok_iff :
    code.check = .ok () ↔
      code.labels.Nodup ∧ code.entry ∈ code.labels ∧ ∀ b ∈ code.blocks, b.Typed code := by
  have hdup : firstDuplicate [] code.labels = none ↔ code.labels.Nodup := by
    simp [firstDuplicate_eq_none_iff]
  unfold check
  cases hfirst : firstDuplicate [] code.labels with
  | some l =>
    have : ¬ code.labels.Nodup := fun h => by simp [hdup.mpr h] at hfirst
    simp [this, bind, Except.bind]
  | none =>
    simp only [hdup.mp hfirst, true_and, seq_eq_ok_iff]
    split <;> simp_all [seq_eq_ok_iff, checkBlocks_eq_ok_iff]

theorem verify_eq_ok_iff : code.verify = .ok () ↔ code.check = .ok () := by
  unfold verify
  split <;> simp_all

end Routine

end LogoEngine
