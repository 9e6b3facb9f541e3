import LogoEngine.Proofs.Eval.Changes
import LogoEngine.Proofs.Machine.Drafts

/-!
# Assertions about code

An **annotation** gives every label an assertion about the evaluator and the registers. It is valid
if every block leads from the assertion of its label to those of the labels it can go to, and if
whatever helpers are called are called as they should be. A `Watch` says what that means: how the
evaluator may change, what helpers and operations must be given, and what must hold when the code
returns. It may also ask something of the annotation where numbers are tested for equality, which is
how the loop of a repetition is known.

Main statement: `Watch.sound`, along a run of linked code with a valid annotation every helper is
called as it should be, and what must hold at the end does.
-/

namespace LogoEngine

/-- A statement about the evaluator and the registers between two instructions. -/
abbrev Assertion := World → Array Value → Prop

/-- An assertion for every label. -/
abbrev Annotation := Label → Assertion

/-- Circumstances in which code runs, and what is to hold along the run. -/
structure Watch where
  re : Reenter
  pins : Pins
  code : Linked
  block : Int
  /-- How the evaluator may change. -/
  follows : World → World → Prop
  /-- What a helper must be given. -/
  ready : Helper → List Value → World → Prop
  /-- What must hold when the code returns. -/
  returns : World → Prop
  /-- What a divisor must be. -/
  divides : Value → Prop := fun _ => True
  /-- What a number must be that another one is tested for equality with. -/
  counts : Value → Prop := fun _ => True
  /-- The blocks that the code may consist of. -/
  has : Block → Prop := fun _ => True
  /-- What a test for equality in a block asks of the annotation. -/
  equates : Annotation → Label → Reg → Reg → Prop := fun _ _ _ _ => True
  /-- What the end of a catch asks of the instructions before it. -/
  ends : List Instr → List Reg → Prop := fun _ _ => True
  refl : ∀ w, follows w w
  trans : ∀ {w w₁ w'}, follows w w₁ → follows w₁ w' → follows w w'

namespace Watch

variable (k : Watch)

/-- What must hold before an instruction. -/
def Ready : Instr → Assertion
  | .call _ helper args => fun w regs => k.ready helper (args.map (readReg regs)) w
  | .arith _ .div _ b => fun _ regs => k.divides (readReg regs b)
  | .compare _ .eq _ b => fun _ regs => k.counts (readReg regs b)
  | _ => fun _ _ => True

/-- What an instruction in a block asks of the annotation and of the instructions before it. -/
def Asks (ann : Annotation) (label : Label) (before : List Instr) : Instr → Prop
  | .compare _ .eq a b => k.equates ann label a b
  | .call _ .endCatch args => k.ends before args
  | _ => True

/-- What must hold before some instructions for an assertion to hold after them. -/
def Along : List Instr → Assertion → Assertion
  | [], Q => Q
  | i :: rest, Q => fun w regs => k.Ready i w regs ∧ ∀ w' regs',
      runInstr k.re k.pins k.code k.block regs i w = .ok (regs', w') → Along rest Q w' regs'

/-- What must hold before a block is left. -/
def Leaves (ann : Annotation) : Exit → Assertion
  | .ret _ | .unreachable => fun w _ => k.returns w
  | .jump target => ann target
  | .branch cond yes no => fun w regs =>
      if (readReg regs cond).asTruth then ann yes w regs else ann no w regs

/-- There are as many registers as the code has. -/
def Sized (regs : Array Value) : Prop :=
  regs.size = k.code.types.size

/-- A block leads from the assertion of its label to those it can go to, and what its instructions
ask for is so. -/
structure Valid (ann : Annotation) (b : Block) : Prop where
  asks : ∀ before i after, b.body = before ++ i :: after → k.Asks ann b.label before i
  along : ∀ w regs, k.Sized regs → ann b.label w regs →
    k.Along b.body (k.Leaves ann b.exit) w regs

variable {k} {P Q : Assertion} {w : World} {regs : Array Value} {ann : Annotation}

/-! ### Instructions -/

theorem Sized.runInstr {i : Instr} {w' : World} {regs' : Array Value} (hsized : k.Sized regs)
    (h : runInstr k.re k.pins k.code k.block regs i w = .ok (regs', w')) : k.Sized regs' := by
  unfold LogoEngine.runInstr at h
  cases i with
  | call dst helper args =>
    obtain ⟨out, w₁, -, hrest⟩ := Run.bind_eq_ok h
    cases dst <;> cases hrest
    · exact hsized
    · exact Array.size_setIfInBounds.trans hsized
  | _ =>
    cases h
    exact Array.size_setIfInBounds.trans hsized

theorem along_append (is js : List Instr) :
    k.Along (is ++ js) Q = k.Along is (k.Along js Q) := by
  induction is with
  | nil => rfl
  | cons i rest ih => simp only [List.cons_append, Along, ih]

theorem Along.mono {is : List Instr} (h : k.Along is P w regs) (hsized : k.Sized regs)
    (hQ : ∀ w regs, k.Sized regs → P w regs → Q w regs) : k.Along is Q w regs := by
  induction is generalizing w regs with
  | nil => exact hQ w regs hsized h
  | cons i rest ih =>
    exact ⟨h.1, fun w' regs' hrun => ih (h.2 w' regs' hrun) (hsized.runInstr hrun)⟩

/-! ### Runs -/

section

variable {routine : Routine}

/-- A configuration in a block: what is left of the block leads on, and if all of it is left the
assertion of its label holds. -/
structure Inside (k : Watch) (ann : Annotation) (b : Block) (c : Config) : Prop where
  left : c.rest <:+ b.body
  sized : k.Sized c.regs
  along : k.Along c.rest (k.Leaves ann b.exit) c.world c.regs
  entered : c.rest = b.body → ann b.label c.world c.regs

/-- A configuration on the way is in one of the blocks. -/
def OnTheWay (k : Watch) (ann : Annotation) (routine : Routine) (c : Config) : Prop :=
  ∃ b, routine.blocks[c.position]? = some b ∧ k.Inside ann b c

/-- A block in the routine and its linked form. -/
theorem exists_linked (hfollows : routine.Follows k.code) {position : Nat} {b : Block}
    (hb : routine.blocks[position]? = some b) :
    ∃ l, k.code.blocks[position]? = some l ∧ l.body = b.body ∧
      routine.ExitFollows b.exit l.exit := by
  have hlt : position < routine.blocks.length := (List.getElem?_eq_some_iff.mp hb).1
  have hlt' : position < k.code.blocks.toList.length := hfollows.blocks.length_eq ▸ hlt
  have hpair := hfollows.blocks.get hlt hlt'
  have hget : routine.blocks.get ⟨position, hlt⟩ = b := (List.getElem?_eq_some_iff.mp hb).2
  rw [hget] at hpair
  refine ⟨k.code.blocks.toList.get ⟨position, hlt'⟩, ?_, hpair⟩
  rw [← Array.getElem?_toList, List.getElem?_eq_getElem hlt']
  rfl

/-- At the start of a block whose assertion holds. -/
theorem onTheWay_enter (hfollows : routine.Follows k.code)
    (hvalid : ∀ b ∈ routine.blocks, k.Valid ann b) {label : Label} {position : Nat}
    (hlocates : routine.Locates label position) (hsized : k.Sized regs) (h : ann label w regs) :
    k.OnTheWay ann routine (Machine.enter k.code w regs position) := by
  obtain ⟨b, hb, rfl⟩ := hlocates
  obtain ⟨l, hl, hbody, -⟩ := exists_linked hfollows hb
  have hrest : (Machine.enter k.code w regs position).rest = b.body := by
    simp only [Machine.enter, hl, Option.map_some, Option.getD_some, hbody]
  refine ⟨b, hb, ?_, hsized, ?_, fun _ => h⟩ <;> rw [hrest]
  exact (hvalid b (List.mem_of_getElem? hb)).along w regs hsized h

/-- What a step may lead to. -/
def Goes (k : Watch) (ann : Annotation) (routine : Routine) : Machine.Outcome → Prop
  | .running c => k.OnTheWay ann routine c
  | .returned _ w => k.returns w

/-- The end of a block goes where the labels are located. -/
theorem goes_leave (hfollows : routine.Follows k.code)
    (hvalid : ∀ b ∈ routine.blocks, k.Valid ann b) {c : Config} {b : Block}
    (hb : routine.blocks[c.position]? = some b) (hsized : k.Sized c.regs)
    (h : k.Leaves ann b.exit c.world c.regs) : k.Goes ann routine (Machine.leave k.code c) := by
  obtain ⟨l, hl, -, hexit⟩ := exists_linked hfollows hb
  simp only [Machine.leave, hl]
  generalize b.exit = exit at h hexit
  generalize l.exit = exit' at hexit
  cases exit with
  | ret value =>
    cases exit' with
    | ret => exact h
    | _ => exact hexit.elim
  | unreachable =>
    cases exit' with
    | unreachable => exact h
    | _ => exact hexit.elim
  | jump target =>
    cases exit' with
    | jump => exact onTheWay_enter hfollows hvalid hexit hsized h
    | _ => exact hexit.elim
  | branch cond yes no =>
    cases exit' with
    | branch cond' yes' no' =>
      obtain ⟨rfl, hyes, hno⟩ := hexit
      simp only [Leaves] at h
      split at h
      · exact onTheWay_enter hfollows hvalid (by simp [*]) hsized h
      · exact onTheWay_enter hfollows hvalid (by simp [*]) hsized h
    | _ => exact hexit.elim

/-- One step stays on the way, and returns only where that is right. -/
theorem OnTheWay.step (hfollows : routine.Follows k.code)
    (hvalid : ∀ b ∈ routine.blocks, k.Valid ann b) {c : Config} {o : Machine.Outcome}
    (h : k.OnTheWay ann routine c) (hstep : Machine.step k.re k.pins k.code k.block c = .ok o) :
    k.Goes ann routine o := by
  obtain ⟨b, hb, hleft, hsized, halong, -⟩ := h
  unfold Machine.step at hstep
  split at hstep
  · next i rest hrest =>
    split at hstep
    · next regs w hrun =>
      cases hstep
      rw [hrest] at halong hleft
      -- less is left of the block than before, so it is not all of it
      refine ⟨b, hb, (List.suffix_cons i rest).trans hleft, hsized.runInstr hrun,
        halong.2 w regs hrun, fun hall => ?_⟩
      have hle := hleft.length_le
      rw [show b.body = rest from hall.symm, List.length_cons] at hle
      exact absurd hle (Nat.not_succ_le_self _)
    · cases hstep
  · next hrest =>
    cases hstep
    rw [hrest] at halong
    exact goes_leave hfollows hvalid hb hsized halong

/-- At the start of a run. -/
theorem onTheWay_start (hfollows : routine.Follows k.code)
    (hvalid : ∀ b ∈ routine.blocks, k.Valid ann b)
    (hentry : ann routine.entry w (initialRegisters k.code.types)) :
    k.OnTheWay ann routine (Machine.start k.code w) :=
  onTheWay_enter hfollows hvalid hfollows.entry (by simp [Sized, initialRegisters]) hentry

/-- **Valid annotations are sound.** Every configuration of a run is on its way, and what must hold
when the code returns does. -/
theorem sound (hfollows : routine.Follows k.code) (hvalid : ∀ b ∈ routine.blocks, k.Valid ann b)
    (hentry : ann routine.entry w (initialRegisters k.code.types)) :
    (∀ c, Machine.Reaches k.re k.pins k.code k.block (Machine.start k.code w) c →
      k.OnTheWay ann routine c) ∧
    ∀ r w', Machine.Returns k.re k.pins k.code k.block (Machine.start k.code w) r w' →
      k.returns w' := by
  have hway : ∀ c, Machine.Reaches k.re k.pins k.code k.block (Machine.start k.code w) c →
      k.OnTheWay ann routine c := by
    intro c hreaches
    induction hreaches with
    | refl => exact onTheWay_start hfollows hvalid hentry
    | tail _ hlast ih => exact ih.step hfollows hvalid hlast
  refine ⟨hway, fun r w' hreturns => ?_⟩
  obtain ⟨c, hreaches, hlast⟩ := hreturns
  exact (hway c hreaches).step hfollows hvalid hlast

end

end Watch

end LogoEngine
