import LogoEngine.Proofs.Machine.Lockstep

/-!
# Tokens that a list hands back

Control structures have lists run by the evaluator. When such a list hands back a token, the code
around the call must **mind** it: the token is returned, or it is left as the value of the code,
and nothing else is done but to put back what the code had changed for the time of the run.

An instruction belongs to a piece of code if it stands in the draft after the code was added and
not before (`Draft.At`). `Stage.Minds` says of every call that belongs to a piece of code what
follows if it comes to a token, wherever the run came from.

Main statement: every control structure has a `minds` lemma.
-/

namespace LogoEngine

/-- Helpers that run more code. -/
def Helper.reenters : Helper → Bool
  | .runList | .runProcedure | .runResult => true
  | _ => false

/-! ### Where instructions stand -/

/-- An instruction stands in a draft: in the block with a label, after so many others. -/
def Draft.At (d : Draft) (l : Label) (k : Nat) (i : Instr) : Prop :=
  ∃ body exit, d.Section l body exit ∧ body[k]? = some i

section

variable {d d' : Draft} {l : Label} {k : Nat} {i : Instr}

/-- Only blocks count. -/
theorem Draft.At.congr (h : d'.At l k i) (hblocks : d'.blocks = d.blocks) (hlabel : d'.label = d.label)
    (hbody : d'.body = d.body) : d.At l k i := by
  obtain ⟨body, exit, hsection, hk⟩ := h
  cases hsection with
  | closed hb => exact ⟨_, _, .closed (hblocks ▸ hb), hk⟩
  | opened =>
    rw [hlabel]
    rw [hbody] at hk
    exact ⟨_, _, .opened, hk⟩

theorem Draft.at_instr {j : Instr} (h : (Emit.instr j d).2.At l k i) :
    d.At l k i ∨ l = d.label ∧ k = d.body.size ∧ i = j := by
  obtain ⟨body, exit, hsection, hk⟩ := h
  cases hsection with
  | closed hb => exact .inl ⟨_, _, .closed hb, hk⟩
  | opened =>
    have hbody : (Emit.instr j d).2.body.toList = d.body.toList ++ [j] := Array.toList_push
    rw [hbody] at hk
    by_cases hlt : k < d.body.size
    · rw [List.getElem?_append_left (by simpa using hlt)] at hk
      exact .inl ⟨_, _, .opened, hk⟩
    · rw [List.getElem?_append_right (by simpa using hlt)] at hk
      have hzero : k - d.body.toList.length = 0 := by
        by_contra hne
        rw [List.getElem?_eq_none (Nat.one_le_iff_ne_zero.mpr hne)] at hk
        cases hk
      rw [hzero] at hk
      simp only [Array.length_toList] at hzero
      exact .inr ⟨rfl, by omega, (Option.some.inj hk).symm⟩

theorem Draft.at_endBlock {exit : Exit} {next : Label} (h : (Emit.endBlock exit next d).2.At l k i) :
    d.At l k i := by
  obtain ⟨body, exit', hsection, hk⟩ := h
  cases hsection with
  | closed hb =>
    rcases Array.mem_push.mp hb with hb | rfl
    · exact ⟨_, _, .closed hb, hk⟩
    · exact ⟨_, _, .opened, hk⟩
  | opened => cases hk

end

/-- A helper that runs no more code. -/
class Helper.Quiet (helper : Helper) : Prop where
  quiet : helper.reenters = false

namespace Emit

/-- Code that runs no more code. -/
class Quiet {α : Type} (m : Emit α) : Prop where
  quiet : ∀ {d : Draft} {l : Label} {k : Nat} {dst : Option Reg} {helper : Helper} {args : List Reg},
    helper.reenters = true → (m d).2.At l k (.call dst helper args) →
      d.At l k (.call dst helper args)

section

variable {α β : Type}

instance (a : α) : Quiet (pure a) := ⟨fun _ h => h⟩

theorem Quiet.bind {m : Emit α} {f : α → Emit β} [hm : Quiet m] (hf : ∀ a, Quiet (f a)) :
    Quiet (m >>= f) :=
  ⟨fun {d _ _ _ _ _} hhelper h => hm.quiet hhelper ((hf (m d).1).quiet hhelper h)⟩

instance {m : Emit α} {f : α → Emit β} [Quiet m] [∀ a, Quiet (f a)] : Quiet (m >>= f) :=
  .bind fun _ => inferInstance

instance {m : Emit α} {f : α → β} [Quiet m] : Quiet (f <$> m) := by
  rw [map_eq_pure_bind]; infer_instance

instance {c : Prop} [Decidable c] {m n : Emit α} [Quiet m] [Quiet n] :
    Quiet (if c then m else n) := by
  split <;> infer_instance

instance (f : α → Emit β) [∀ a, Quiet (f a)] (o : Option α) : Quiet (o.mapM f) := by
  cases o with
  | none => rw [Option.mapM_none]; infer_instance
  | some a => rw [Option.mapM_some]; infer_instance

instance (ty : Ty) : Quiet (freshReg ty) := ⟨fun _ h => h.congr rfl rfl rfl⟩
instance : Quiet freshLabel := ⟨fun _ h => h.congr rfl rfl rfl⟩
instance (r : Reg) : Quiet (typeOf r) := ⟨fun _ h => h⟩
instance (exit : Exit) (next : Label) : Quiet (endBlock exit next) :=
  ⟨fun _ h => Draft.at_endBlock h⟩

instance (r : Ref) : Quiet (slot r) := by
  refine ⟨fun _ h => ?_⟩
  unfold slot at h
  split at h
  · exact h
  · exact h.congr rfl rfl rfl

theorem Quiet.instr {i : Instr}
    (hi : ∀ dst helper args, i = .call dst helper args → helper.reenters = false) :
    Quiet (instr i) := by
  refine ⟨fun {d l k dst helper args} hhelper h => ?_⟩
  rcases Draft.at_instr h with h | ⟨-, -, h⟩
  · exact h
  · rw [hi dst helper args h.symm] at hhelper
    cases hhelper

end

/-! ### Quiet code -/

section

variable (who : Ref) (a b : Reg)

instance (r : Reg) (x : Float) : Quiet (instr (.real r x)) := .instr nofun
instance (r : Reg) (p : Bool) : Quiet (instr (.truth r p)) := .instr nofun
instance (r : Reg) (index : Nat) : Quiet (instr (.const r index)) := .instr nofun
instance (r : Reg) (op : ArithOp) : Quiet (instr (.arith r op a b)) := .instr nofun
instance (r : Reg) (op : CompareOp) : Quiet (instr (.compare r op a b)) := .instr nofun
instance (r : Reg) : Quiet (instr (.isInt r a)) := .instr nofun
instance (r : Reg) : Quiet (instr (.not r a)) := .instr nofun
instance (r : Reg) : Quiet (instr (.and r a b)) := .instr nofun
instance : Quiet (instr (.move a b)) := .instr nofun
instance (dst : Option Reg) (helper : Helper) [h : helper.Quiet] (args : List Reg) :
    Quiet (instr (.call dst helper args)) :=
  .instr fun _ _ _ hcall => by cases hcall; exact h.quiet

instance (x : Float) : Quiet (real x) := by unfold real; infer_instance
instance (p : Bool) : Quiet (truth p) := by unfold truth; infer_instance
instance (r : Ref) : Quiet (const r) := by unfold const; infer_instance
instance : Quiet (move a b) := by unfold move; infer_instance
instance (op : ArithOp) : Quiet (arith op a b) := by unfold arith; infer_instance
instance (op : CompareOp) : Quiet (compare op a b) := by unfold compare; infer_instance
instance : Quiet (isInt a) := by unfold isInt; infer_instance
instance : Quiet (not a) := by unfold not; infer_instance
instance : Quiet (and a b) := by unfold and; infer_instance
instance (helper : Helper) [helper.Quiet] (args : List Reg) : Quiet (call helper args) := by
  unfold call; infer_instance
instance (helper : Helper) [helper.Quiet] (args : List Reg) : Quiet (perform helper args) := by
  unfold perform; infer_instance
instance : Quiet (returnNow a) := by unfold returnNow; infer_instance
instance (build : Emit Reg) [Quiet build] : Quiet (returnWhen a build) := by
  unfold returnWhen; infer_instance

instance (mask : Nat) : (Helper.hasTag mask).Quiet := ⟨rfl⟩
instance : Helper.wordFromReal.Quiet := ⟨rfl⟩
instance : Helper.realOf.Quiet := ⟨rfl⟩
instance : Helper.realValid.Quiet := ⟨rfl⟩
instance : Helper.truthOf.Quiet := ⟨rfl⟩
instance : Helper.truthValid.Quiet := ⟨rfl⟩
instance : Helper.errDoesntLike.Quiet := ⟨rfl⟩
instance : Helper.errDontSay.Quiet := ⟨rfl⟩
instance : Helper.errDidntOutput.Quiet := ⟨rfl⟩
instance : Helper.errNoTest.Quiet := ⟨rfl⟩
instance : Helper.errToplevel.Quiet := ⟨rfl⟩
instance : Helper.writeError.Quiet := ⟨rfl⟩
instance : Helper.pause.Quiet := ⟨rfl⟩
instance : Helper.erract.Quiet := ⟨rfl⟩
instance : Helper.repcount.Quiet := ⟨rfl⟩
instance : Helper.setRepcount.Quiet := ⟨rfl⟩
instance : Helper.beginCatch.Quiet := ⟨rfl⟩
instance : Helper.endCatch.Quiet := ⟨rfl⟩
instance : Helper.isTested.Quiet := ⟨rfl⟩
instance : Helper.testedState.Quiet := ⟨rfl⟩

instance : Quiet (passToken a) := by unfold passToken; infer_instance
instance (mask : Nat) : Quiet (whenKind mask a) := by unfold whenKind; infer_instance
instance (l l' : Label) : Quiet (deliver a b l l') := by unfold deliver; infer_instance
instance : Quiet (dislike who a) := by unfold dislike; infer_instance
instance (l : Label) : Quiet (reject who a l) := by unfold reject; infer_instance
instance (l l' : Label) : Quiet (askOrGiveUp l l') := by unfold askOrGiveUp; infer_instance
instance : Quiet (askAgain who a) := by unfold askAgain; infer_instance
instance (l l' l'' : Label) : Quiet (branchOnData a l l' l'') := by
  unfold branchOnData; infer_instance
instance : Quiet (requireValue who a) := by unfold requireValue; infer_instance
instance (check : Reg → Emit Reg) [∀ r, Quiet (check r)] : Quiet (retryDatum who a check) := by
  unfold retryDatum
  repeat refine .bind fun _ => ?_
  infer_instance
instance (check : Reg → Emit Reg) [∀ r, Quiet (check r)] : Quiet (retryReal who a check) := by
  unfold retryReal
  repeat refine .bind fun _ => ?_
  infer_instance
instance : Quiet (truthFromDatum who a) := by unfold truthFromDatum; infer_instance
instance : Quiet (runnable who a) := by unfold runnable datumOfKind; infer_instance
instance : Quiet (count who a) := by unfold count; infer_instance
instance : Quiet (leaveLoop a b) := by unfold leaveLoop; infer_instance
instance (l : Label) (last : Option (Reg × Reg × Label)) : Quiet (keepLast a l last) := by
  cases last <;> unfold keepLast <;> infer_instance
instance (l : Label) : Quiet (refuseData a b l) := by unfold refuseData; infer_instance
instance (last : Option (Reg × Reg × Label)) : Quiet (passOutcome a b last) := by
  unfold passOutcome; infer_instance
instance : Quiet (ownResult who) := by unfold ownResult; infer_instance
instance : Quiet (countPass a b) := by unfold countPass; infer_instance
instance (wanted : Bool) : Quiet (testedAs wanted) := by unfold testedAs; infer_instance

end

end Emit

/-! ### What is put back -/

/-- One thing that control structures put back when the list they had run is left: the number of
repetitions, `ERRACT`, and the list that is being run. -/
inductive World.Restore : World → World → Prop
  | repcount (w : World) (x : Float) : Restore w { w with repcount := x }
  | erract (w : World) (value : Ref) : Restore w { w with frames := w.frames.set "ERRACT" value }
  | line (w : World) (line : Option Ref) :
      Restore w { w with frames := w.frames.modifyTop fun frame => { frame with line } }

/-- Things are put back, and nothing else is done. -/
def World.Restores : World → World → Prop :=
  Relation.ReflTransGen World.Restore

namespace World

variable {w w' : World}

/-- Nothing is put back but the number of repetitions and what is in the frames. -/
theorem Restores.eq_with (h : w.Restores w') :
    w' = { w with repcount := w'.repcount, frames := w'.frames } := by
  induction h with
  | refl => rfl
  | tail _ hlast ih =>
    rw [ih] at hlast
    cases hlast <;> rfl

theorem Restores.heap_eq (h : w.Restores w') : w'.heap = w.heap := by
  rw [h.eq_with]

end World

/-- What is no error leaves a catch as it is, and `ERRACT` is put back. -/
theorem endCatch_token {w : World} {t : Ref} (h : (w.heap.get t).error? = none)
    (stash tag node : Ref) :
    ∃ w', w.Restores w' ∧ w'.heap = w.heap ∧ endCatch stash tag node t w = .ok (t, w') := by
  have hheap : (Run.heap : Run Heap) w = .ok (w.heap, w) := rfl
  by_cases hstash : w.heap.isData stash = true
  · refine ⟨{ w with frames := w.frames.set "ERRACT" stash }, .single (.erract w stash), rfl, ?_⟩
    simp only [endCatch, bind, StateT.bind, Except.bind, hheap, hstash, if_true, h]
    rfl
  · refine ⟨w, .refl, rfl, ?_⟩
    simp only [endCatch, bind, StateT.bind, Except.bind, hheap, hstash, Bool.false_eq_true, if_false,
      h]
    rfl

/-! ### Code that minds tokens -/

namespace Stage

variable (s : Stage)

/-- Of every call that belongs to a piece of code and runs more code it is said what follows if it
comes to a token that is as `P` says. -/
def Minds {α : Type} (P : World → Ref → Prop) (m : Emit α) (d : Draft)
    (Q : Ref → World → α → Draft → Machine.Outcome → Prop) : Prop :=
  (m d).2.Within s.final → ∀ ⦃l k dst helper args⦄, helper.reenters = true →
    (m d).2.At l k (.call dst helper args) → ¬ d.At l k (.call dst helper args) →
    ∀ ⦃w regs t w'⦄, regs.size = s.final.types.size →
      callHelper s.re (.registers regs :: s.pins) helper (args.map (readReg regs)) w =
        .ok (.datum t, w') → P w' t →
      ∃ o, s.Leads (s.inside l k w regs) o ∧ Q t w' (m d).1 (m d).2 o

/-- Where a run is that was handed a token: it has returned the token and things are put back, or it
stands where the next instruction will be added, with the token in a register. -/
def Hands (t : Ref) (w : World) (a : Reg) (d : Draft) (o : Machine.Outcome) : Prop :=
  (∃ w', w.Restores w' ∧ o = .returned t w') ∨
    ∃ regs, o = s.here d w regs ∧ (readReg regs a).asDatum = t

variable {s} {α β : Type} {P : World → Ref → Prop} {m : Emit α} {f : α → Emit β} {d : Draft}
  {Q : Ref → World → α → Draft → Machine.Outcome → Prop}
  {R : Ref → World → β → Draft → Machine.Outcome → Prop}

/-! ### Rules -/

theorem Minds.quiet [hm : Emit.Quiet m] : s.Minds P m d Q :=
  fun _ _ _ _ _ _ hhelper hat hnot => absurd (hm.quiet hhelper hat) hnot

theorem Minds.mono {Q' : Ref → World → α → Draft → Machine.Outcome → Prop} (h : s.Minds P m d Q)
    (hQ : ∀ t w a d' o, Q t w a d' o → Q' t w a d' o) : s.Minds P m d Q' := by
  intro hw l k dst helper args hhelper hat hnot w regs t w' hsize hcall hP
  obtain ⟨o, hleads, hq⟩ := h hw hhelper hat hnot hsize hcall hP
  exact ⟨o, hleads, hQ _ _ _ _ _ hq⟩

/-- The draft has grown meanwhile. -/
theorem Minds.grown [Emit.Grows m] (h : s.Minds P m d Q) :
    s.Minds P m d fun t w a d' o => d.types.toList <+: d'.types.toList ∧ Q t w a d' o := by
  intro hw l k dst helper args hhelper hat hnot w regs t w' hsize hcall hP
  obtain ⟨o, hleads, hq⟩ := h hw hhelper hat hnot hsize hcall hP
  exact ⟨o, hleads, Emit.Grows.types_prefix m d, hq⟩

/-- A call belongs to the first piece of code, and then the run goes along the second one, or it
belongs to the second. -/
theorem Minds.bind [Emit.Grows m] [g : Emit.GrowsAll f]
    (hm : s.Minds P m d fun t w a d' o => s.Runs (f a) d' o (R t w))
    (hf : ∀ a d', d.types.toList <+: d'.types.toList → s.Minds P (f a) d' R) :
    s.Minds P (m >>= f) d R := by
  intro hw l k dst helper args hhelper hat hnot w regs t w' hsize hcall hP
  by_cases hfirst : (m d).2.At l k (.call dst helper args)
  · obtain ⟨o, hleads, hruns⟩ :=
      hm ((g.grows (m d).1).within hw) hhelper hfirst hnot hsize hcall hP
    obtain ⟨o', hleads', hr⟩ := hruns hw
    exact ⟨o', hleads.trans hleads', hr⟩
  · exact hf _ _ (Emit.Grows.types_prefix m d) hw hhelper hat hfirst hsize hcall hP

/-- Quiet code comes first. -/
theorem Minds.after [Emit.Grows m] [Emit.Quiet m] [Emit.GrowsAll f]
    (hf : ∀ a d', d.types.toList <+: d'.types.toList → s.Minds P (f a) d' R) :
    s.Minds P (m >>= f) d R :=
  .bind .quiet hf

/-- A register is made first. -/
theorem Minds.freshReg {ty : Ty} {f : Reg → Emit β} [Emit.GrowsAll f]
    (hf : ∀ r d', Declares d'.types r ty → s.Minds P (f r) d' R) :
    s.Minds P (Emit.freshReg ty >>= f) d R := by
  intro hw l k dst helper args hhelper hat hnot
  have hdeclares : Declares (Emit.freshReg ty d).2.types ⟨d.types.size⟩ ty := by
    show (d.types.push ty)[d.types.size]? = some ty
    simp
  exact hf _ _ hdeclares hw hhelper hat fun hbefore => hnot (hbefore.congr rfl rfl rfl)

/-- Quiet code comes first, and a register stays. -/
theorem Minds.keeping [Emit.Grows m] [Emit.Quiet m] [Emit.GrowsAll f] {r : Reg} {ty : Ty}
    (hr : Declares d.types r ty) (hf : ∀ a d', Declares d'.types r ty → s.Minds P (f a) d' R) :
    s.Minds P (m >>= f) d R :=
  .after fun a d' hd' => hf a d' (hr.mono hd')

theorem Minds.ownResult {node : Ref} {f : Reg → Emit β} [hgrows : Emit.GrowsAll f]
    (hf : ∀ r d', Declares d'.types r .datum → s.Minds P (f r) d' R) :
    s.Minds P (Emit.ownResult node >>= f) d R := by
  have := hgrows.grows
  simp only [Emit.ownResult, bind_assoc, pure_bind]
  exact .freshReg fun r _ hr => .keeping hr fun _ _ hr => .keeping hr fun _ d' hr => hf r d' hr

/-- A call that was just added, from where it stands: what it comes to is in a new register. -/
theorem runs_call_at {l : Label} {k : Nat} {dst : Option Reg} {helper helper' : Helper}
    {args args' : List Reg} (hret : helper.signature.ret.getD .datum = .datum)
    (hat : (Emit.call helper args d).2.At l k (.call dst helper' args'))
    (hnot : ¬ d.At l k (.call dst helper' args')) {w w' : World} {regs : Array Value} {t : Ref}
    (hsize : regs.size = s.final.types.size)
    (hcall : callHelper s.re (.registers regs :: s.pins) helper' (args'.map (readReg regs)) w =
      .ok (.datum t, w'))
    {Q : Reg → Draft → Machine.Outcome → Prop}
    (h : ∀ dst d' regs', Keeps d regs d' regs' → Carries d' regs' dst (.datum t) →
      Q dst d' (s.here d' w' regs')) :
    s.Runs (Emit.call helper args) d (s.inside l k w regs) Q := by
  let d₁ := (Emit.freshReg (helper.signature.ret.getD .datum) d).2
  have hat' : (Emit.instr (.call (some ⟨d.types.size⟩) helper args) d₁).2.At l k
      (.call dst helper' args') := hat
  rcases Draft.at_instr hat' with hbefore | ⟨rfl, rfl, hsame⟩
  · exact absurd (Draft.At.congr (d := d) hbefore rfl rfl rfl) hnot
  cases hsame
  have hrun : ∀ dst, runInstr s.re s.pins s.code s.block regs (.call (some dst) helper args) w =
      .ok (writeReg regs dst (.datum t), w') := by
    intro dst
    simp only [runInstr, Bind.bind, StateT.bind, Except.bind, hcall]
    rfl
  have hruns : s.Runs (Emit.call helper args) d (s.here d w regs) Q :=
    runs_load (v := .datum t) hsize hret.symm hrun h
  exact hruns

/-- The call itself: the token is in its register. -/
theorem Minds.call {helper : Helper} {args : List Reg}
    (hret : helper.signature.ret.getD .datum = .datum)
    {Q : Ref → World → Reg → Draft → Machine.Outcome → Prop}
    (h : ∀ t w dst d' regs, P w t → regs.size = s.final.types.size →
      d.types.toList <+: d'.types.toList → Carries d' regs dst (.datum t) →
      Q t w dst d' (s.here d' w regs)) :
    s.Minds P (Emit.call helper args) d Q := by
  intro hw l k dst helper' args' _ hat hnot w regs t w' hsize hcall hP
  have hruns : s.Runs (Emit.call helper args) d (s.inside l k w regs) fun dst d' o =>
      Q t w' dst d' o := by
    refine runs_call_at hret hat hnot hsize hcall fun dst d' regs' hkeeps hcarries => ?_
    exact h t w' dst d' regs' hP (hkeeps.size.trans hsize) hkeeps.types hcarries
  exact hruns hw

/-! ### Control structures -/

section

variable {w : World} {regs : Array Value} {value : Reg} {t : Ref}

/-- A token is returned at once, and with anything else the run goes on. -/
theorem runs_passToken (hsize : regs.size = s.final.types.size)
    (hvalue : Carries d regs value (.datum t)) {Q : Unit → Draft → Machine.Outcome → Prop}
    (hgo : w.heap.isFlow t = false → ∀ d' regs', Keeps d regs d' regs' → Q () d' (s.here d' w regs'))
    (hleave : w.heap.isFlow t = true → ∀ d', Q () d' (.returned t w)) :
    s.Runs (Emit.passToken value) d (s.here d w regs) Q := by
  have htest : ∀ pins, callHelper s.re pins (.hasTag flowMask) [.datum t] w =
      .ok (.truth (w.heap.isFlow t), w) := fun _ => rfl
  refine .bind (runs_call hsize (.cons hvalue .nil) htest rfl fun isFlow d₁ regs₁ hkeeps hr => ?_)
  refine runs_returnWhen hr.reads (fun hno d₂ hgrow => ?_) fun hyes d₂ _ => ?_
  · exact hgo hno d₂ regs₁ (hkeeps.grow hgrow)
  · refine .pure ⟨w, regs₁, rfl, fun d' => ?_⟩
    rw [(hvalue.keep hkeeps).reads]
    exact hleave hyes d'

/-- A token is returned at once. -/
theorem runs_passToken_flow (hsize : regs.size = s.final.types.size)
    (hvalue : Carries d regs value (.datum t)) (hflow : w.heap.isFlow t = true)
    {Q : Unit → Draft → Machine.Outcome → Prop} (h : ∀ d', Q () d' (.returned t w)) :
    s.Runs (Emit.passToken value) d (s.here d w regs) Q :=
  runs_passToken hsize hvalue (fun hno => absurd hflow (by simp [hno])) fun _ => h

/-- A token leaves a loop, and the number of repetitions is put back. With anything else the run
goes on. -/
theorem runs_leaveLoop (hsize : regs.size = s.final.types.size)
    (hvalue : Carries d regs value (.datum t)) {saved : Reg}
    {Q : Unit → Draft → Machine.Outcome → Prop}
    (htoken : w.heap.isFlow t = true → ∀ d₁ regs₁, Keeps d regs d₁ regs₁ →
      ∀ d', Q () d' (.returned t { w with repcount := (readReg regs₁ saved).asReal }))
    (hgo : w.heap.isFlow t = false → ∀ d' regs', Keeps d regs d' regs' →
      Q () d' (s.here d' w regs')) :
    s.Runs (Emit.leaveLoop value saved) d (s.here d w regs) Q := by
  refine runs_whenKind hsize hvalue (fun hflow next d₁ regs₁ hkeeps₁ => ?_)
    fun hno next d₁ regs₁ hkeeps₁ => ?_
  · have hput : runInstr s.re s.pins s.code s.block regs₁ (.call none .setRepcount [saved]) w =
        .ok (regs₁, { w with repcount := (readReg regs₁ saved).asReal }) := rfl
    refine .bind (runs_instr hput (runs_endBlock fun d₂ _ _ => ?_))
    rw [exitTo, (hvalue.keep hkeeps₁).reads]
    exact htoken hflow d₁ regs₁ hkeeps₁ d₂
  · exact .pass fun _ _ => .opensLast fun _ d₂ hd₂ => hgo hno d₂ regs₁ (hkeeps₁.grow hd₂)

theorem runs_passOutcome_flow (hsize : regs.size = s.final.types.size)
    (hvalue : Carries d regs value (.datum t)) (hflow : w.heap.isFlow t = true) (saved : Reg)
    (last : Option (Reg × Reg × Label)) {Q : Unit → Draft → Machine.Outcome → Prop}
    (h : ∀ d' w', w.Restores w' → Q () d' (.returned t w')) :
    s.Runs (Emit.passOutcome value saved last) d (s.here d w regs) Q := by
  unfold Emit.passOutcome
  refine .bind (runs_leaveLoop hsize hvalue (fun _ d₁ regs₁ _ d₂ => ?_) fun hno => ?_)
  · -- what stands behind the way out is not looked at
    exact .skip fun _ d₃ _ => h d₃ _ (.single (.repcount w _))
  · exact absurd hflow (by simp [hno])

end

variable (hP : ∀ w t, P w t → w.heap.isFlow t = true) {who node : Ref} {a b : Reg}

theorem minds_run : s.Minds P (Emit.run who a) d s.Hands := by
  refine .after fun list d₁ _ => .call rfl fun t w dst d₂ regs _ _ _ hcarries => ?_
  exact .inr ⟨regs, rfl, by rw [hcarries.reads]; rfl⟩

include hP

theorem minds_runIfList :
    s.Minds P (Emit.runIfList who a) d fun t w _ _ o => o = .returned t w := by
  unfold Emit.runIfList
  repeat refine .after fun _ _ _ => ?_
  refine .bind (.call rfl fun t w dst d₁ regs ht hsize _ hcarries => ?_) fun _ _ _ => .quiet
  exact .bind (runs_passToken_flow hsize hcarries (hP w t ht) fun d₂ => .skip fun _ _ _ => rfl)

theorem minds_condition :
    s.Minds P (Emit.condition who a) d fun t w _ _ o => o = .returned t w := by
  unfold Emit.condition
  refine @Minds.after _ _ _ _ _ _ _ _ _ _ ⟨fun ty => ?_⟩ fun ty d₁ _ => ?_
  · cases ty <;> infer_instance
  cases ty with
  | truth => exact .quiet
  | real | datum =>
    refine .bind ((minds_runIfList hP).mono fun t w _ d₂ o ho => ?_) fun _ _ _ => .quiet
    rw [ho]
    exact .skip fun _ _ _ => rfl

omit hP in
/-- What is in a register that something was moved to. -/
theorem asDatum_moved {regs : Array Value} {result value : Reg} {t : Ref} {d : Draft}
    (hresult : Declares d.types result .datum) (hwithin : d.Within s.final)
    (hsize : regs.size = s.final.types.size) (hvalue : Carries d regs value (.datum t)) :
    (readReg (writeReg regs result (readReg regs value)) result).asDatum = t := by
  have hlt := (hresult.mono hwithin.types).lt_size
  rw [readReg_writeReg_self (by omega), hvalue.reads]
  rfl

omit hP in
theorem minds_runOther {no : Option Reg} :
    s.Minds P (Emit.runOther node no) d fun t w r d' o => ∃ regs,
      regs.size = s.final.types.size ∧ Carries d' regs r (.datum t) ∧ o = s.here d' w regs := by
  cases no with
  | none => exact .quiet (m := Emit.const node)
  | some list => exact .call rfl fun t w r d' regs _ hsize _ hr => ⟨regs, hsize, hr, rfl⟩

theorem minds_conditional {no : Option Reg} :
    s.Minds P (Emit.conditional who node a b no) d s.Hands := by
  unfold Emit.conditional
  refine .bind ((minds_condition hP).mono fun t w _ d₁ o ho => ?_) fun cond d₁ _ => ?_
  · rw [ho]
    exact .skip fun _ _ _ => .inl ⟨w, .refl, rfl⟩
  refine .after fun yes _ _ => .after fun no _ _ => .freshReg fun result _ hresult => ?_
  repeat refine .keeping hresult fun _ _ hresult => ?_
  refine .bind (.call rfl fun t w dst d₂ regs _ hsize h₂ hvalue => ?_) fun value d₂ h₂ => ?_
  · -- the run goes past the other list
    refine .within fun hw => .bind (runs_deliver fun d₃ _ _ => .past ?_)
    refine .pass fun _ _ => .opens fun _ d₄ _ => .pure (.inr ⟨_, rfl, ?_⟩)
    exact asDatum_moved (hresult.mono h₂) hw hsize hvalue
  · refine .keeping (hresult.mono h₂) fun _ d₃ hresult₃ => ?_
    refine .bind (minds_runOther.grown.mono ?_) fun _ _ _ => .quiet
    rintro t w r d₄ _ ⟨h₄, regs, hsize, hvalue, rfl⟩
    refine .within fun hw => .bind (runs_deliver fun d₅ _ hopens => ?_)
    rw [← hopens]
    exact .pure (.inr ⟨_, rfl, asDatum_moved (hresult₃.mono h₄) hw hsize hvalue⟩)

theorem minds_forever : s.Minds P (Emit.forever who node a) d s.Hands := by
  unfold Emit.forever
  repeat refine .after fun _ _ _ => ?_
  -- all else is quiet: there is no other list, in this pass or in a later one
  refine .bind (.call rfl fun t w dst d₁ regs ht hsize _ hcarries => ?_) fun _ _ _ => .quiet
  refine .bind (runs_passOutcome_flow hsize hcarries (hP w t ht) _ _ fun d' w' hw' => ?_)
  exact .skip fun _ _ _ => .inl ⟨w', hw', rfl⟩

theorem minds_repetition : s.Minds P (Emit.repetition who node a b) d s.Hands := by
  unfold Emit.repetition
  repeat refine .after fun _ _ _ => ?_
  refine .bind (.call rfl fun t w dst d₁ regs ht hsize _ hcarries => ?_) fun _ _ _ => .quiet
  -- whether this is the last pass does not matter
  refine .bind (runs_load hsize rfl (fun _ => rfl) fun isLast d₂ regs' hkeeps _ => ?_)
  refine .bind (runs_passOutcome_flow (hkeeps.size.trans hsize) (hcarries.keep hkeeps) (hP w t ht)
    _ _ fun d' w' hw' => ?_)
  exact .skip fun _ _ _ => .inl ⟨w', hw', rfl⟩

omit hP in
theorem minds_ifTested {wanted : Bool} : s.Minds P (Emit.ifTested wanted who node a) d s.Hands := by
  unfold Emit.ifTested
  refine .after fun list _ _ => .after fun tested _ _ => .after fun untested _ _ => ?_
  refine .after fun _ _ _ => .after fun cond _ _ => .ownResult fun result _ hresult => ?_
  repeat refine .keeping hresult fun _ _ hresult => ?_
  refine .bind (.call rfl fun t w dst d₁ regs _ hsize h₁ hvalue => ?_) fun _ _ _ => .quiet
  refine .within fun hw => .bind (runs_deliver fun d₂ _ hopens => ?_)
  rw [← hopens]
  exact .pure (.inr ⟨_, rfl, asDatum_moved (hresult.mono h₁) hw hsize hvalue⟩)

theorem minds_catching (herror : ∀ w t, P w t → (w.heap.get t).error? = none) :
    s.Minds P (Emit.catching who node a b) d s.Hands := by
  unfold Emit.catching
  refine .after fun list d₁ _ => .after fun stash d₂ _ => ?_
  refine .bind (.call rfl fun t w dst d₃ regs ht hsize _ hvalue => ?_) fun _ _ _ => .quiet
  refine .bind (runs_const hsize fun self d₄ regs₄ hkeeps₄ _ => ?_)
  -- the token is no error, so it is the result, and `ERRACT` is put back
  obtain ⟨w', hw', hheap, hend⟩ := endCatch_token (herror w t ht) (readReg regs₄ stash).asDatum
    (readReg regs₄ a).asDatum (readReg regs₄ self).asDatum
  have hrun : ∀ r, runInstr s.re s.pins s.code s.block regs₄
      (.call (some r) .endCatch [stash, a, self, dst]) w = .ok (writeReg regs₄ r (.datum t), w') := by
    intro r
    have hdst := (hvalue.keep hkeeps₄).reads
    simp only [runInstr, callHelper, List.map_cons, List.map_nil, hdst, datumArg, Functor.map,
      StateT.map, bind, StateT.bind, Except.bind, List.getElem?_cons_zero, List.getElem?_cons_succ,
      Option.getD_some, Value.asDatum] at hend ⊢
    rw [hend]
    rfl
  refine .bind (runs_load (v := .datum t) (hkeeps₄.size.trans hsize) rfl hrun
    fun out d₅ regs₅ hkeeps₅ hout => ?_)
  have hflow : w'.heap.isFlow t = true := by
    rw [hheap]
    exact hP w t ht
  refine .bind (runs_passToken_flow ((hkeeps₄.trans hkeeps₅).size.trans hsize) hout hflow ?_)
  exact fun d₆ => .pure (.inl ⟨w', hw', rfl⟩)

end Stage

end LogoEngine
