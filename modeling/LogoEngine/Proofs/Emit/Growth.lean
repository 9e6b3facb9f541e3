import LogoEngine.Emit.Ask
import LogoEngine.Emit.Flow
import LogoEngine.Emit.Number
import Mathlib.Data.List.Infix

/-!
# Drafts only grow

A draft lies **within** a later one when everything in it is still there: its finished blocks, the
instructions of its open block, its registers, constants and labels. Everything that emits code
**grows** drafts: what the result lies within, the draft it started from lies within too. So facts
about emitted code can be stated about the finished draft, where they never change.

Code that ends a block says which label it opens next (`Emit.Opening`).

Main statement: every emitter has an instance of `Emit.Grows`.
-/

namespace LogoEngine

/-- A draft is part of a finished one. -/
structure Draft.Within (d final : Draft) : Prop where
  types : d.types.toList <+: final.types.toList
  constants : d.constants.toList <+: final.constants.toList
  labels : d.nextLabel ≤ final.nextLabel
  blocks : ∀ b ∈ d.blocks, b ∈ final.blocks
  opened : ∃ b ∈ final.blocks, b.label = d.label ∧ d.body.toList <+: b.body

theorem Draft.Within.types_size_le {d final : Draft} (h : d.Within final) :
    d.types.size ≤ final.types.size := by
  simpa using h.types.length_le

/-- The draft with its open block closed, which lies within itself. -/
def Draft.closed (d : Draft) : Draft :=
  { d with blocks := d.blocks.push ⟨d.label, d.body.toList, .unreachable⟩ }

theorem Draft.within_closed (d : Draft) : d.Within d.closed :=
  ⟨List.prefix_rfl, List.prefix_rfl, Nat.le_refl _, fun _ hb => Array.mem_push.mpr (.inl hb),
    _, Array.mem_push.mpr (.inr rfl), rfl, List.prefix_rfl⟩

/-- Everything a computation starts from is part of what it leads to. -/
class Emit.Grows {α : Type} (m : Emit α) : Prop where
  within : ∀ {d final : Draft}, (m d).2.Within final → d.Within final

/-- So it is with a family of computations. -/
class Emit.GrowsAll {γ α : Type} (f : γ → Emit α) : Prop where
  grows : ∀ c, Emit.Grows (f c)

namespace Emit

/-! ### Families -/

section

variable {γ α β : Type}

instance (f : γ → Emit α) [h : ∀ c, Grows (f c)] : GrowsAll f := ⟨h⟩

instance (m : Emit α) [h : Grows m] : GrowsAll fun _ : γ => m := ⟨fun _ => h⟩

-- what a step has left is a component of the family that follows it, so no binder is ever unused
instance (m : γ → Emit α) (f : γ → α → Emit β) [hm : GrowsAll m]
    [hf : GrowsAll fun p : γ × α => f p.1 p.2] : GrowsAll fun c => m c >>= f c :=
  ⟨fun c => ⟨fun {d _} h => (hm.grows c).within ((hf.grows (c, (m c d).1)).within h)⟩⟩

end

/-! ### Single steps -/

section

variable {α β : Type}

instance (a : α) : Grows (pure a) := ⟨fun h => h⟩

theorem Grows.bind {m : Emit α} {f : α → Emit β} [hm : Grows m] (hf : ∀ a, Grows (f a)) :
    Grows (m >>= f) :=
  ⟨fun {d _} h => hm.within ((hf (m d).1).within h)⟩

instance {m : Emit α} {f : α → Emit β} [Grows m] [hf : GrowsAll f] : Grows (m >>= f) :=
  .bind hf.grows

instance {m : Emit α} {f : α → β} [Grows m] : Grows (f <$> m) := by
  rw [map_eq_pure_bind]; infer_instance

instance {c : Prop} [Decidable c] {m n : Emit α} [Grows m] [Grows n] :
    Grows (if c then m else n) := by
  split <;> infer_instance

instance (ty : Ty) : Grows (freshReg ty) := by
  refine ⟨fun {d final} h => ⟨?_, h.constants, h.labels, h.blocks, h.opened⟩⟩
  have := h.types
  simp only [freshReg, Array.toList_push] at this
  exact (List.prefix_append _ _).trans this

instance : Grows freshLabel :=
  ⟨fun h => ⟨h.types, h.constants, Nat.le_of_succ_le h.labels, h.blocks, h.opened⟩⟩

instance (r : Reg) : Grows (typeOf r) := ⟨fun h => h⟩

instance (i : Instr) : Grows (instr i) := by
  refine ⟨fun {d final} h => ⟨h.types, h.constants, h.labels, h.blocks, ?_⟩⟩
  obtain ⟨b, hb, hlabel, hbody⟩ := h.opened
  refine ⟨b, hb, hlabel, (List.prefix_append d.body.toList [i]).trans ?_⟩
  rw [← Array.toList_push]
  exact hbody

instance (exit : Exit) (next : Label) : Grows (endBlock exit next) := by
  refine ⟨fun {d final} h => ⟨h.types, h.constants, h.labels, fun b hb => ?_, ?_⟩⟩
  · exact h.blocks b (Array.mem_push.mpr (.inl hb))
  · exact ⟨_, h.blocks _ (Array.mem_push.mpr (.inr rfl)), rfl, List.prefix_rfl⟩

instance (r : Ref) : Grows (slot r) := by
  refine ⟨fun {d final} h => ?_⟩
  unfold slot at h
  split at h
  · exact h
  · refine ⟨h.types, ?_, h.labels, h.blocks, h.opened⟩
    have := h.constants
    simp only [Array.toList_push] at this
    exact (List.prefix_append _ _).trans this

/-- Labels are never taken back. -/
theorem Grows.nextLabel_le (m : Emit α) [hm : Grows m] (d : Draft) :
    d.nextLabel ≤ (m d).2.nextLabel :=
  (hm.within (m d).2.within_closed).labels

/-- Nor are registers. -/
theorem Grows.types_prefix (m : Emit α) [hm : Grows m] (d : Draft) :
    d.types.toList <+: (m d).2.types.toList :=
  (hm.within (m d).2.within_closed).types

/-! ### Repetition -/

instance (f : β → α → Emit β) [∀ b a, Grows (f b a)] (b : β) (as : List α) :
    Grows (as.foldlM f b) := by
  induction as generalizing b with
  | nil => rw [List.foldlM_nil]; infer_instance
  | cons a as _ => rw [List.foldlM_cons]; infer_instance

instance (f : α → Emit β) [∀ a, Grows (f a)] (as : List α) : Grows (as.mapM f) := by
  induction as with
  | nil => rw [List.mapM_nil]; infer_instance
  | cons a as _ => rw [List.mapM_cons]; infer_instance

instance (f : α → Emit β) [∀ a, Grows (f a)] (o : Option α) : Grows (o.mapM f) := by
  cases o with
  | none => rw [Option.mapM_none]; infer_instance
  | some a => rw [Option.mapM_some]; infer_instance

end

/-! ### Instructions and ways out -/

instance (x : Float) : Grows (real x) := by unfold real; infer_instance
instance (b : Bool) : Grows (truth b) := by unfold truth; infer_instance
instance (r : Ref) : Grows (const r) := by unfold const; infer_instance
instance : Grows nothing := by unfold nothing; infer_instance
instance (dst src : Reg) : Grows (move dst src) := by unfold move; infer_instance
instance (op : ArithOp) (a b : Reg) : Grows (arith op a b) := by unfold arith; infer_instance
instance (op : CompareOp) (a b : Reg) : Grows (compare op a b) := by
  unfold compare; infer_instance
instance (a : Reg) : Grows (isInt a) := by unfold isInt; infer_instance
instance (a : Reg) : Grows (not a) := by unfold not; infer_instance
instance (a b : Reg) : Grows (and a b) := by unfold and; infer_instance
instance (helper : Helper) (rs : List Reg) : Grows (call helper rs) := by
  unfold call; infer_instance
instance (helper : Helper) (rs : List Reg) : Grows (perform helper rs) := by
  unfold perform; infer_instance
instance (r : Reg) : Grows (returnNow r) := by unfold returnNow; infer_instance
instance (r : Reg) (build : Emit Reg) [Grows build] : Grows (returnWhen r build) := by
  unfold returnWhen; infer_instance
instance (r : Reg) : Grows (passToken r) := by unfold passToken; infer_instance
instance (mask : Nat) (r : Reg) : Grows (whenKind mask r) := by unfold whenKind; infer_instance
instance (dst src : Reg) (target next : Label) : Grows (deliver dst src target next) := by
  unfold deliver; infer_instance

/-! ### Checked inputs and casts -/

section

variable (who : Ref) (src : Reg) (l l' l'' : Label) (request produced : Request)

instance : Grows (dislike who src) := by unfold dislike; infer_instance
instance : Grows (reject who src l) := by unfold reject; infer_instance
instance : Grows (askOrGiveUp l l') := by unfold askOrGiveUp; infer_instance
instance : Grows (askAgain who src) := by unfold askAgain; infer_instance
instance : Grows (branchOnData src l l' l'') := by unfold branchOnData; infer_instance

instance (check : Reg → Emit Reg) [∀ r, Grows (check r)] : Grows (retryDatum who src check) := by
  unfold retryDatum; infer_instance
instance (check : Reg → Emit Reg) [∀ r, Grows (check r)] : Grows (retryReal who src check) := by
  unfold retryReal; infer_instance
instance : Grows (realFromDatum who src) := by unfold realFromDatum; infer_instance
instance : Grows (truthFromDatum who src) := by unfold truthFromDatum; infer_instance
instance (mask : Nat) : Grows (datumOfKind who mask src) := by unfold datumOfKind; infer_instance
instance : Grows (int32 who src) := by unfold int32; infer_instance
instance (op : CompareOp) : Grows (comparedToZero op who src) := by
  unfold comparedToZero; infer_instance
instance : Grows (nonzeroInt32 who src) := by unfold nonzeroInt32; infer_instance
instance : Grows (positiveInt32 who src) := by unfold positiveInt32; infer_instance
instance : Grows (count who src) := by unfold count; infer_instance

instance : Grows (requireNothing src) := by unfold requireNothing; infer_instance
instance : Grows (requireValue who src) := by unfold requireValue; infer_instance
instance : Grows (nativeFromDatum who src request) := by unfold nativeFromDatum; infer_instance
instance : Grows (placeholder request) := by unfold placeholder; infer_instance
instance : Grows (castBoxed src who request) := by unfold castBoxed; infer_instance
instance : Grows (castDatum src who produced request) := by unfold castDatum; infer_instance
instance : Grows (cast src who produced request) := by
  unfold cast
  have (ty : Ty) : Grows (match ty with
      | .real => if request.contains .real then return src
        else do castBoxed (← call .wordFromReal [src]) who request
      | .truth => if request.contains .truth then return src
        else do castBoxed (← call .wordFromTruth [src]) who request
      | .datum => castDatum src who produced request) := by
    cases ty <;> infer_instance
  infer_instance

end

/-! ### Arithmetic -/

section

variable (who node : Ref) (a b c : Reg)

instance (step : Reg → Reg → Emit Reg) [∀ a b, Grows (step a b)] (identity : Float)
    (rs : List Reg) : Grows (fold step identity rs) := by
  cases rs <;> unfold fold <;> infer_instance
instance : Grows (negate a) := by unfold negate; infer_instance
instance : Grows (reciprocal who a) := by unfold reciprocal; infer_instance
instance : Grows (quotient who a b) := by unfold quotient; infer_instance
instance (f : MathFn) : Grows (remainder f who a b) := by unfold remainder; infer_instance
instance : Grows (squareRoot who a) := by unfold squareRoot; infer_instance
instance (f : MathFn) : Grows (logarithm f who a) := by unfold logarithm; infer_instance
instance : Grows (power who a b) := by
  unfold power; infer_instance
instance (f : MathFn) (degrees : Bool) : Grows (trigonometric f degrees a) := by
  unfold trigonometric; infer_instance
instance (degrees : Bool) : Grows (inUnit degrees a) := by unfold inUnit; infer_instance
instance (degrees : Bool) : Grows (arctangent degrees a) := by unfold arctangent; infer_instance
instance (degrees : Bool) : Grows (arctangentOf degrees a b) := by
  unfold arctangentOf; infer_instance
instance (f : MathFn) (identity : Float) (rs : List Reg) : Grows (bitwise f identity who rs) := by
  unfold bitwise; infer_instance
instance : Grows (complement who a) := by unfold complement; infer_instance
instance (f : MathFn) : Grows (shift f who a b) := by unfold shift; infer_instance
instance : Grows (random who a) := by unfold random; infer_instance
instance : Grows (randomRange who a b) := by unfold randomRange; infer_instance
instance (rs : List Reg) : Grows (rerandom who node rs) := by
  cases rs <;> unfold rerandom <;> infer_instance
instance : Grows (form who a b c) := by unfold form; infer_instance
instance : Grows (infixFault who node) := by unfold infixFault; infer_instance

/-! ### Control structures -/

instance : Grows (runIfList who a) := by
  unfold runIfList; infer_instance
instance : Grows (condition who a) := by
  unfold condition
  refine .bind fun ty => ?_
  cases ty <;> infer_instance
instance : Grows (runnable who a) := by unfold runnable; infer_instance
instance : Grows (run who a) := by unfold run; infer_instance
instance : Grows (runResult who a) := by unfold runResult; infer_instance
instance : Grows (leaveLoop a b) := by unfold leaveLoop; infer_instance
instance (l : Label) (last : Option (Reg × Reg × Label)) : Grows (keepLast a l last) := by
  cases last <;> unfold keepLast <;> infer_instance
instance (l : Label) : Grows (refuseData a b l) := by unfold refuseData; infer_instance
instance (last : Option (Reg × Reg × Label)) : Grows (passOutcome a b last) := by
  unfold passOutcome; infer_instance
instance : Grows (ownResult node) := by unfold ownResult; infer_instance
instance : Grows (countPass a b) := by unfold countPass; infer_instance
instance : Grows (repetition who node a b) := by
  unfold repetition; infer_instance
instance : Grows (forever who node a) := by
  unfold forever; infer_instance
instance (no : Option Reg) : Grows (runOther node no) := by
  cases no <;> unfold runOther <;> infer_instance
instance (no : Option Reg) : Grows (conditional who node a b no) := by
  unfold conditional; infer_instance
instance : Grows (test who node a) := by unfold test; infer_instance
instance (wanted : Bool) : Grows (testedAs wanted) := by unfold testedAs; infer_instance
instance (wanted : Bool) : Grows (ifTested wanted who node a) := by
  unfold ifTested; infer_instance
instance (helper : Helper) (rs : List Reg) : Grows (leaveWith node helper rs) := by
  unfold leaveWith; infer_instance
instance : Grows (goto node a) := by unfold goto; infer_instance
instance : Grows (catching who node a b) := by unfold catching; infer_instance
instance (value : Option Reg) : Grows (throwing node a value) := by
  cases value <;> unfold throwing <;> infer_instance
instance (value : Option Reg) : Grows (resume node value) := by
  cases value <;> unfold resume <;> infer_instance

/-! ### Data, variables, output and turtle -/

instance (helper : Helper) (rs : List Reg) : Grows (ask helper rs) := by
  unfold ask; infer_instance
instance (helper : Helper) (rs : List Reg) : Grows (askWithNode helper node rs) := by
  unfold askWithNode; infer_instance
instance : Grows (assign who node a b) := by unfold assign; infer_instance
instance (mode : WriteMode) (rs : List Reg) : Grows (write mode node rs) := by
  unfold write; infer_instance
instance (rs : List Reg) : Grows (procedureCall node rs) := by
  unfold procedureCall; infer_instance
instance : Grows (variableValue node) := by unfold variableValue; infer_instance

end

/-! ### Labels that are opened -/

/-- Code that ends where a label is opened, whatever it does before. -/
class Opening {α : Type} (m : Emit α) (l : outParam Label) : Prop where
  opens : ∀ d, (m d).2.label = l ∧ (m d).2.body = #[]

section

variable {α β : Type} (who : Ref) (a b : Reg) (l l' l'' : Label)

instance (exit : Exit) : Opening (endBlock exit l) l := ⟨fun _ => ⟨rfl, rfl⟩⟩
instance {m : Emit α} {f : α → Emit β} {l : Label} [hf : ∀ a, Opening (f a) l] :
    Opening (m >>= f) l :=
  ⟨fun d => (hf (m d).1).opens (m d).2⟩
instance : Opening (deliver a b l' l) l := by unfold deliver; infer_instance
instance : Opening (reject who a l) l := by unfold reject; infer_instance
instance : Opening (askOrGiveUp l l') l := by unfold askOrGiveUp; infer_instance
instance : Opening (branchOnData a l' l'' l) l := by unfold branchOnData; infer_instance
instance : Opening (refuseData a b l) l := by unfold refuseData; infer_instance
instance (last : Option (Reg × Reg × Label)) : Opening (keepLast a l last) l := by
  cases last <;> unfold keepLast <;> infer_instance

end

end Emit

end LogoEngine
