import LogoEngine.Proofs.Emit.Handing
import LogoEngine.Proofs.Lower.Endings

/-!
# Statements that have lists run

A control statement such as `REPEAT` evaluates its inputs and then has a list run, once or more
often, by calls that belong to the statement itself and not to its inputs. If one of these runs
hands back a token, the statement ends with that token; only `CATCH` looks at errors first. The same
goes for the call of a procedure.

Main statements: `Node.Gets.hands` and `Node.HasRun.hands`.
-/

namespace LogoEngine

/-- Statements that run lists in place. -/
def Generator.isControl : Generator → Bool
  | .run | .ifTrueThen | .ifElse | .ifTrue | .ifFalse | .repeatTimes | .forever | .catching => true
  | _ => false

/-- Statements that have more code run: control statements and calls of procedures. -/
def Generator.runsCode (g : Generator) : Bool :=
  g.isControl || g = .execProcedure

theorem Generator.runsCode_of_isControl {g : Generator} (hcontrol : g.isControl = true) :
    g.runsCode = true := by
  rw [runsCode, hcontrol, Bool.true_or]

/-- The code of the inputs of a node. -/
def lowerArguments (h : Heap) (head : NodeHead) (inputs : List Node) : Lower (List Reg) := do
  let requests := head.generator.requests inputs.length
  let raw ← lowerInputs h inputs requests
  castInputs head.name raw inputs requests

/-- A statement on its own has come so far that it is about to have a list run. The call is one of
its own, not of its inputs: its result goes to a register that the code of the inputs does not have.
`held` is what is held on to meanwhile. -/
inductive Node.HasRun (re : Reenter) (h : Heap) (pins : Pins) (w : World) :
    Node → Ref → Pins → World → Prop
  | intro {head : NodeHead} {inputs : List Node} {name : String} {routine : Routine} {code : Linked}
      {rs : List Reg} {d : Draft} {c : Config} {dst r : Reg} {rest : List Instr}
      (hroutine : soloRoutine h name (.call head inputs) = .ok routine)
      (hlink : routine.link .machine = .ok code)
      (hinputs : (lowerArguments h head inputs).run {} = (.ok rs, d))
      (hreaches : Machine.Reaches re (.constants code.constants :: pins) code 0
        (Machine.start code w) c)
      (hnext : c.rest = .call (some dst) .runList [r] :: rest) (hown : d.types.size ≤ dst.index) :
      HasRun re h pins w (.call head inputs) (readReg c.regs r).asDatum
        (.registers c.regs :: .constants code.constants :: pins) c.world

/-- A statement on its own gets a value from a call of its own that has run more code. -/
inductive Node.Gets (re : Reenter) (h : Heap) (pins : Pins) (w : World) :
    Node → Ref → World → Prop
  | intro {head : NodeHead} {inputs : List Node} {name : String} {routine : Routine} {code : Linked}
      {rs : List Reg} {d : Draft} {c : Config} {dst : Reg} {helper : Helper} {args : List Reg}
      {rest : List Instr} {t : Ref} {w' : World}
      (hroutine : soloRoutine h name (.call head inputs) = .ok routine)
      (hlink : routine.link .machine = .ok code)
      (hinputs : (lowerArguments h head inputs).run {} = (.ok rs, d))
      (hreaches : Machine.Reaches re (.constants code.constants :: pins) code 0
        (Machine.start code w) c)
      (hnext : c.rest = .call (some dst) helper args :: rest) (hown : d.types.size ≤ dst.index)
      (hreenters : helper.reenters = true)
      (hcall : callHelper re (.registers c.regs :: .constants code.constants :: pins) helper
        (args.map (readReg c.regs)) c.world = .ok (.datum t, w')) :
      Gets re h pins w (.call head inputs) t w'

/-- A statement on its own hands a token on: it leaves with the token, or it is done with the token
as its value. -/
def Node.Hands (re : Reenter) (h : Heap) (pins : Pins) (node : Node) (w : World) (t : Ref)
    (w' : World) : Prop :=
  node.Ends re h pins w (.left t w') ∨ ∃ regs, node.Ends re h pins w (.done t regs w')

section

variable {h : Heap} {node : Node} {head : NodeHead} {inputs : List Node} {re : Reenter} {pins : Pins}
  {code : Linked} {w : World}

/-! ### The code of a statement -/

/-- The code of the inputs uses no registers but its own. -/
theorem exists_lowerArguments (hinputs : ∀ input ∈ inputs, input.Built h) :
    ∃ rs d, (lowerArguments h head inputs).run {} = (.ok rs, d) ∧
      (∀ r ∈ rs, r.index < d.types.size) ∧
      ∀ l k dst helper args, d.At l k (.call (some dst) helper args) → dst.index < d.types.size := by
  have hspec := ((lowerInputs_spec (d := {}) (fun input hi => (hinputs input hi).lowers)
    (head.generator.requests inputs.length)).bind fun raw d₁ _ hraw =>
      Lower.Spec.lift (@castInputs_spec _ _ head.name _ _ _ hraw))
  obtain ⟨rs, d, hrun, -, hdeclares, hleads⟩ := hspec
  refine ⟨rs, d, hrun, fun r hr => ?_, ?_⟩
  · obtain ⟨i, hi, rfl⟩ := List.getElem_of_mem hr
    exact (hdeclares.get hi (hdeclares.length_eq ▸ hi)).lt_size
  have hstart : Draft.Sound {} d.closed 1 (fun _ => True) [] :=
    ⟨by simp, by simp, by simp, by simp [List.range_succ], by simp⟩
  obtain ⟨marked, -, -, hsound, -⟩ := hleads d.closed False False.elim d.within_closed
    (fun _ => True) [] (fun h => h.elim) hstart fun _ => trivial
  rintro l k dst helper args ⟨body, exit, hsection, hk⟩
  have hmem := List.mem_of_getElem? hk
  have hregs : dst ∈ (Instr.call (some dst) helper args).regs := by simp [Instr.regs]
  cases hsection with
  | closed hb => exact ((hsound.body _ hb _ hmem).1).regs dst hregs
  | opened => exact ((hsound.opened _ (Array.mem_toList_iff.mp hmem)).1).regs dst hregs

namespace SoloStage

variable (t : SoloStage h node re pins code)

/-- The labels that the code leads to stand in the code. -/
theorem exists_target {b : Block} (hb : b ∈ t.stage.final.blocks) {l : Label}
    (hl : l ∈ b.exit.targets) : ∃ b' ∈ t.stage.final.blocks, b'.label = l := by
  have htargets := (t.solo.wellFormed "").targets
  rw [t.final_eq] at hb ⊢
  obtain ⟨b', hb', rfl⟩ := List.mem_map.mp (htargets b (Array.mem_toList_iff.mpr hb) l hl)
  exact ⟨b', Array.mem_toList_iff.mp hb', rfl⟩

/-- A run stands in one of the blocks of the code, before an instruction or at the end. -/
def Stands (c : Config) : Prop :=
  c.regs.size = t.stage.final.types.size ∧ ∃ b ∈ t.stage.final.blocks,
    c.position = t.stage.place b.label ∧ ∃ k, c.rest = b.body.drop k

theorem stands_enter {b : Block} (hb : b ∈ t.stage.final.blocks) (w : World) {regs : Array Value}
    (hsize : regs.size = t.stage.final.types.size) :
    t.Stands (Machine.enter t.stage.code w regs (t.stage.place b.label)) := by
  obtain ⟨l, hl, hbody, -⟩ := t.stage.blocks b hb
  exact ⟨hsize, b, hb, rfl, 0, by simp [Machine.enter, hl, hbody]⟩

/-- Every step leads to another such place. -/
theorem Stands.step {c c' : Config} (hc : t.Stands c) (hstep : t.stage.Step (.running c) (.running c')) :
    t.Stands c' := by
  obtain ⟨hsize, b, hb, hposition, k, hrest⟩ := hc
  obtain ⟨_, ⟨⟩, hstep⟩ := hstep
  unfold Machine.step at hstep
  split at hstep
  · -- the next instruction of the same block
    next i rest hi =>
    split at hstep
    · next regs w hrun =>
      cases hstep
      refine ⟨(Emit.size_of_runInstr hrun).trans hsize, b, hb, hposition, k + 1, ?_⟩
      rw [← List.tail_drop, ← hrest, hi]
      rfl
    · cases hstep
  · -- the block is left for one of its targets
    obtain ⟨l, hl, -, hexit⟩ := t.stage.blocks b hb
    have hleave : Machine.leave t.stage.code c = .running c' := by simpa using hstep
    unfold Machine.leave at hleave
    rw [hposition, hl] at hleave
    simp only [hexit] at hleave
    cases hend : b.exit with
    | ret | unreachable => simp [hend, Exit.placed] at hleave
    | jump target =>
      obtain ⟨b', hb', rfl⟩ := t.exists_target hb (l := target) (by simp [hend, Exit.targets])
      simp only [hend, Exit.placed, Machine.Outcome.running.injEq] at hleave
      rw [← hleave]
      exact t.stands_enter hb' _ hsize
    | branch cond yes no =>
      simp only [hend, Exit.placed, Machine.Outcome.running.injEq] at hleave
      rw [← hleave]
      split
      · obtain ⟨b', hb', rfl⟩ := t.exists_target hb (l := yes) (by simp [hend, Exit.targets])
        exact t.stands_enter hb' _ hsize
      · obtain ⟨b', hb', rfl⟩ := t.exists_target hb (l := no) (by simp [hend, Exit.targets])
        exact t.stands_enter hb' _ hsize

theorem stands_of_leads {c : Config}
    (hleads : t.stage.Leads (t.stage.here {} w (initialRegisters code.types)) (.running c)) :
    t.Stands c := by
  generalize ho : Machine.Outcome.running c = o at hleads
  induction hleads generalizing c with
  | refl =>
    -- the start is the block with the first label
    have hentry := (t.solo.wellFormed "").entry
    obtain ⟨b, hb, hlabel⟩ := List.mem_map.mp hentry
    have hb' : b ∈ t.stage.final.blocks := by
      rw [t.final_eq]
      exact Array.mem_toList_iff.mp hb
    have hsize : (initialRegisters code.types).size = t.stage.final.types.size := by
      rw [← t.stage.types, t.code_eq]
      simp [initialRegisters]
    cases ho
    have hstands := t.stands_enter hb' w hsize
    rw [hlabel] at hstands
    exact hstands
  | tail hbefore hstep ih =>
    obtain ⟨c₁, rfl, -⟩ := id hstep
    cases ho
    exact (ih rfl).step t hstep

/-- A call that a run comes to stands in the code, and if its result goes to a register that the code
of the inputs does not have, it does not stand there. -/
theorem exists_at {inputs : List Node} {head : NodeHead}
    (t : SoloStage h (.call head inputs) re pins code) (hbuilt : ∀ input ∈ inputs, input.Built h)
    {rs : List Reg} {d : Draft} (hinputs : (lowerArguments h head inputs).run {} = (.ok rs, d))
    {c : Config} {dst : Reg} {helper : Helper} {args : List Reg} {rest : List Instr}
    (hleads : t.stage.Leads (t.stage.here {} w (initialRegisters code.types)) (.running c))
    (hnext : c.rest = .call (some dst) helper args :: rest) (hown : d.types.size ≤ dst.index) :
    ∃ l k, t.draft.At l k (.call (some dst) helper args) ∧
      ¬ d.At l k (.call (some dst) helper args) ∧ c.regs.size = t.stage.final.types.size ∧
      Machine.Outcome.running c = t.stage.inside l k c.world c.regs := by
  obtain ⟨hsize, b, hb, hposition, k, hrest⟩ := t.stands_of_leads hleads
  have hbody : b.body[k]? = some (.call (some dst) helper args) := by
    rw [← List.head?_drop, ← hrest, hnext]
    rfl
  have hat : t.draft.At b.label k (.call (some dst) helper args) := by
    rw [t.final_eq] at hb
    rcases Array.mem_push.mp hb with hb | rfl
    · exact ⟨_, _, .closed hb, hbody⟩
    · exact ⟨_, _, .opened, hbody⟩
  have hnot : ¬ d.At b.label k (.call (some dst) helper args) := by
    intro hbefore
    obtain ⟨rs', d', hrun', -, hlt⟩ := @exists_lowerArguments h head _ hbuilt
    rw [hinputs] at hrun'
    cases hrun'
    have := hlt _ _ _ _ _ hbefore
    omega
  have hinside : Machine.Outcome.running c = t.stage.inside b.label k c.world c.regs := by
    obtain ⟨block, hblock, hsame, -⟩ := t.stage.blocks b hb
    have hbodyAt : t.stage.bodyAt b.label = b.body := by simp [Stage.bodyAt, hblock, hsame]
    rw [Stage.inside, hbodyAt, ← hrest, ← hposition]
  exact ⟨b.label, k, hat, hnot, hsize, hinside⟩

/-- A run that stands behind an instruction of a block has just done that instruction. -/
theorem exists_before {d : Draft} (hwithin : d.Within t.stage.final) {l : Label} {k : Nat} {i : Instr}
    (hat : d.At l k i) {w₁ : World} {regs : Array Value}
    (hleads : t.stage.Leads (t.stage.here {} w (initialRegisters code.types))
      (t.stage.inside l (k + 1) w₁ regs)) :
    ∃ w₀ regs₀, regs₀.size = t.stage.final.types.size ∧
      t.stage.Leads (t.stage.here {} w (initialRegisters code.types))
        (t.stage.inside l k w₀ regs₀) ∧
      runInstr t.stage.re t.stage.pins t.stage.code t.stage.block regs₀ i w₀ = .ok (regs, w₁) := by
  obtain ⟨body, exit, hsection, hk⟩ := hat
  obtain ⟨b, hb, hbegins, -⟩ := Stage.exists_section hwithin hsection
  have hbody : t.stage.bodyAt l = b.body := by simp [Stage.bodyAt, hb]
  have hdrop : b.body.drop k = i :: b.body.drop (k + 1) := Twins.drop_of_prefix hbegins hk
  have hlength := congrArg List.length hdrop
  simp only [List.length_drop, List.length_cons] at hlength
  simp only [Stage.inside, hbody] at hleads ⊢
  -- a block is entered at its start
  have hstart : ∀ {c : Config}, c = Machine.enter t.stage.code c.world c.regs c.position →
      c ≠ ⟨w₁, regs, t.stage.place l, b.body.drop (k + 1)⟩ := by
    rintro _ henter rfl
    have hrest := congrArg (List.length ∘ Config.rest) henter
    simp only [Function.comp, Machine.enter, hb, Option.map_some, Option.getD_some,
      List.length_drop] at hrest
    omega
  rcases Relation.ReflTransGen.cases_tail hleads with heq | ⟨_, hbefore, c, rfl, hstep⟩
  · rw [← t.start_eq] at heq
    refine absurd (Machine.Outcome.running.inj heq).symm (hstart ?_)
    rw [t.code_eq]
    rfl
  unfold Machine.step at hstep
  split at hstep
  · next j rest hj =>
    split at hstep
    · next regs' w' hrun =>
      simp only [Except.ok.injEq, Machine.Outcome.running.injEq, Config.mk.injEq] at hstep
      obtain ⟨rfl, rfl, hplace, rfl⟩ := hstep
      obtain ⟨hsize, b₀, hb₀, hposition, k₀, hrest⟩ := t.stands_of_leads hbefore
      -- the instruction stands in the same block, so it is the one in front
      obtain ⟨b', hb', hbody', -⟩ := t.stage.blocks b₀ hb₀
      rw [← hposition, hplace, hb, Option.some.injEq] at hb'
      subst hb'
      rw [hj, ← hbody'] at hrest
      have hlength₀ := congrArg List.length hrest
      simp only [List.length_cons, List.length_drop] at hlength₀
      obtain rfl : k = k₀ := by omega
      obtain ⟨rfl, -⟩ := List.cons.inj (hdrop.symm.trans hrest.symm)
      refine ⟨c.world, c.regs, hsize, ?_, hrun⟩
      rwa [hdrop, ← hj, ← hplace]
    · cases hstep
  · have hleave : Machine.leave t.stage.code c = .running _ := Except.ok.inj hstep
    exact absurd rfl (hstart (Machine.eq_enter_of_leave hleave))

/-- A run that returns has left the statement, or was done with it. -/
theorem hands_of_returned {name : String} {routine : Routine}
    (hroutine : soloRoutine h name node = .ok routine) (hlink : routine.link .machine = .ok code)
    {r : Ref} {w' : World}
    (hleads : t.stage.Leads (t.stage.here {} w (initialRegisters code.types)) (.returned r w')) :
    node.Hands re h pins w r w' := by
  have hends : ∀ {ending}, code.Ends re pins w ending → node.Ends re h pins w ending :=
    fun hends => ⟨name, routine, code, hroutine, hlink, hends⟩
  rw [← t.start_eq] at hleads
  obtain ⟨c, hreaches, hstep⟩ := Stage.leads_returned_iff.mp hleads
  rw [t.start_eq] at hreaches
  obtain ⟨-, b, hb, hposition, -⟩ := t.stands_of_leads hreaches
  rw [t.final_eq] at hb
  rcases Array.mem_push.mp hb with hb | rfl
  · -- one of the blocks that the code has closed
    exact .inl (hends (t.ends_left_iff.mpr ⟨c, hreaches, hstep, hposition ▸ t.place_lt b hb⟩))
  · obtain ⟨hc, rfl⟩ := (t.step_iff (hposition.trans t.last_eq)).mp hstep
    rw [hc] at hreaches
    exact .inr ⟨c.regs, hends (t.ends_done_iff.mpr ⟨hreaches, rfl⟩)⟩

end SoloStage

/-! ### Tokens -/

private theorem Primitive.table_runsCode : ∀ row ∈ Primitive.table, row.generator.runsCode = true →
    row.returns = .nothing ∨ row.returns = .datumOrNothing := by
  decide +kernel

theorem Lower.of_run_lift {m : Emit Reg} {d d' : Draft} {r : Reg}
    (hrun : (liftM m : Lower Reg).run d = (.ok r, d')) : m d = (r, d') := by
  have hlift : (liftM m : Lower Reg).run d = (.ok (m d).1, (m d).2) := rfl
  rw [hlift, Prod.mk.injEq, Except.ok.injEq] at hrun
  exact Prod.ext hrun.1 hrun.2

/-- The code of statements that have more code run minds tokens, and that of `CATCH` those that are no
errors. -/
theorem exists_minds_emitNode {P : World → Ref → Prop}
    (hflow : ∀ w t, P w t → w.heap.isFlow t = true)
    (herror : head.generator = .catching → ∀ w t, P w t → (w.heap.get t).error? = none)
    (hruns : head.generator.runsCode = true) {rs : List Reg} {d d' : Draft} {r : Reg}
    (hrun : (emitNode h head rs).run d = (.ok r, d')) :
    ∃ m : Emit Reg, m d = (r, d') ∧ ∀ s : Stage, s.Minds P m d s.Hands := by
  obtain ⟨node, id, who, g, returns⟩ := head
  -- with fewer inputs than the code takes nothing is emitted, so there is no such run
  cases g
  case run =>
    rcases rs with _ | ⟨a, rest⟩
    · cases hrun
    · exact ⟨Emit.run who a, Lower.of_run_lift hrun, fun s => Stage.minds_run⟩
  case forever =>
    rcases rs with _ | ⟨a, rest⟩
    · cases hrun
    · exact ⟨Emit.forever who node a, Lower.of_run_lift hrun, fun s => Stage.minds_forever hflow⟩
  case ifTrue =>
    rcases rs with _ | ⟨a, rest⟩
    · cases hrun
    · exact ⟨Emit.ifTested true who node a, Lower.of_run_lift hrun, fun s => Stage.minds_ifTested⟩
  case ifFalse =>
    rcases rs with _ | ⟨a, rest⟩
    · cases hrun
    · exact ⟨Emit.ifTested false who node a, Lower.of_run_lift hrun, fun s => Stage.minds_ifTested⟩
  case repeatTimes =>
    rcases rs with _ | ⟨a, _ | ⟨b, rest⟩⟩
    · cases hrun
    · cases hrun
    · exact ⟨Emit.repetition who node a b, Lower.of_run_lift hrun, fun s =>
        Stage.minds_repetition hflow⟩
  case catching =>
    rcases rs with _ | ⟨a, _ | ⟨b, rest⟩⟩
    · cases hrun
    · cases hrun
    · exact ⟨Emit.catching who node a b, Lower.of_run_lift hrun, fun s =>
        Stage.minds_catching hflow (herror rfl)⟩
  case ifTrueThen | ifElse =>
    rcases rs with _ | ⟨a, _ | ⟨b, rest⟩⟩
    · cases hrun
    · cases hrun
    · exact ⟨Emit.conditional who node a b rest.head?, Lower.of_run_lift hrun, fun s =>
        Stage.minds_conditional hflow⟩
  case execProcedure =>
    refine ⟨Emit.procedureCall node rs, Lower.of_run_lift hrun, fun s => ?_⟩
    refine .after fun self d₁ _ => .call rfl fun t w dst d₂ regs _ _ _ hvalue => ?_
    exact .inr ⟨regs, rfl, by rw [hvalue.reads]; rfl⟩
  all_goals cases hruns

/-- A statement that has more code run need not have a value, and its inputs are built. -/
theorem Node.Built.of_runsCode (hbuilt : (Node.call head inputs).Built h)
    (hruns : head.generator.runsCode = true) :
    (head.returns = .nothing ∨ head.returns = .datumOrNothing) ∧
      ∀ input ∈ inputs, input.Built h := by
  cases hbuilt with
  | primitive name row hname hrow hgenerator hreturns hinputs =>
    have hrow' := Primitive.table_runsCode row (Primitive.mem_of_find? hrow) (hgenerator ▸ hruns)
    exact ⟨hreturns ▸ hrow', hinputs⟩
  | procedure hgenerator hreturns hinputs => exact ⟨.inr hreturns, hinputs⟩
  | literal _ hgenerator | valueOf _ hgenerator =>
    rw [hgenerator] at hruns
    cases hruns

theorem Draft.not_at_empty {l : Label} {k : Nat} {i : Instr} : ¬ ({} : Draft).At l k i := by
  rintro ⟨body, exit, hsection, hk⟩
  cases hsection with
  | closed hb => simp at hb
  | opened => simp at hk

theorem arityFault?_quiet {helper : Helper} {n : Nat} (hfault : arityFault? h head n = some helper) :
    helper.Quiet := by
  unfold arityFault? at hfault
  repeat' split at hfault
  all_goals cases hfault <;> exact ⟨rfl⟩

/-- The code of a statement is that of its inputs, and then its own. -/
theorem SoloStage.run_emitNode (t : SoloStage h (.call head inputs) re pins code)
    (hbuilt : (Node.call head inputs).Built h)
    (hopen : head.returns = .nothing ∨ head.returns = .datumOrNothing)
    (hfault : arityFault? h head inputs.length = none) (hspecial : head.generator.isSpecial = false)
    {rs : List Reg} {d : Draft} (hinputs : (lowerArguments h head inputs).run {} = (.ok rs, d)) :
    (emitNode h head rs).run d = (.ok t.reg, t.draft) := by
  have hrun := t.solo.run
  rw [lowerStatement_of_open hbuilt hopen, lowerNode_generic hfault hspecial, ← bind_assoc] at hrun
  rw [← hrun]
  exact (Lower.run_bind hinputs).symm

/-- The code of a statement that has more code run: that of its inputs, and then code that minds
tokens. -/
theorem SoloStage.minds {P : World → Ref → Prop}
    (hflow : ∀ w t, P w t → w.heap.isFlow t = true)
    (herror : head.generator = .catching → ∀ w t, P w t → (w.heap.get t).error? = none)
    (t : SoloStage h (.call head inputs) re pins code) (hbuilt : (Node.call head inputs).Built h)
    (hruns : head.generator.runsCode = true) {rs : List Reg} {d : Draft}
    (hinputs : (lowerArguments h head inputs).run {} = (.ok rs, d))
    {l : Label} {k : Nat} {dst : Option Reg} {helper : Helper} {args : List Reg}
    (hhelper : helper.reenters = true) (hat : t.draft.At l k (.call dst helper args)) :
    ∃ m : Emit Reg, m d = (t.reg, t.draft) ∧ t.stage.Minds P m d t.stage.Hands := by
  have hrun := t.solo.run
  rw [lowerStatement_of_open hbuilt (hbuilt.of_runsCode hruns).1] at hrun
  cases hfault : arityFault? h head inputs.length with
  | some helper' =>
    -- the code of a wrong number of inputs runs nothing
    have := arityFault?_quiet hfault
    have hquiet : Emit.Quiet (emitArityFault head helper') := by
      unfold emitArityFault
      infer_instance
    have hnode : lowerNode h (.call head inputs) .datumOrNothing =
        liftM (emitArityFault head helper') := by
      rw [lowerNode.eq_def]
      dsimp only
      rw [hfault]
    rw [hnode] at hrun
    have hempty : ({} : Draft).At l k (.call dst helper args) := by
      refine hquiet.quiet hhelper ?_
      rw [Lower.of_run_lift hrun]
      exact hat
    exact absurd hempty Draft.not_at_empty
  | none =>
    have hspecial : head.generator.isSpecial = false := by
      cases hg : head.generator <;> rw [hg] at hruns <;> first | rfl | cases hruns
    obtain ⟨m, hm, hminds⟩ := exists_minds_emitNode hflow herror hruns
      (t.run_emitNode hbuilt (hbuilt.of_runsCode hruns).1 hfault hspecial hinputs)
    exact ⟨m, hm, hminds t.stage⟩

/-- **A statement hands on every token that it gets** from code that it has run: it leaves with the
token or is done with it as its value, and nothing else is done but to put things back. -/
theorem Node.Gets.hands (hbuilt : (Node.call head inputs).Built h)
    (hruns : head.generator.runsCode = true) {t : Ref} {w₁ : World}
    (hgets : Node.Gets re h pins w (.call head inputs) t w₁) (hflow : w₁.heap.isFlow t = true)
    (herror : head.generator = .catching → (w₁.heap.get t).error? = none) :
    ∃ w₂, w₁.Restores w₂ ∧ (Node.call head inputs).Hands re h pins w t w₂ := by
  let P : World → Ref → Prop := fun w t => w.heap.isFlow t = true ∧
    (head.generator = .catching → (w.heap.get t).error? = none)
  cases hgets with
  | @intro _ _ name routine code rs d c dst helper args rest _ _ hroutine hlink hinputs hreaches hnext
      hown hreenters hcall =>
  obtain ⟨routine', code', hroutine', hlink', ⟨s⟩⟩ := exists_soloStage hbuilt re pins name
  obtain rfl : routine = routine' := Except.ok.inj (hroutine.symm.trans hroutine')
  obtain rfl : code = code' := Except.ok.inj (hlink.symm.trans hlink')
  -- the call stands in the code of the statement, and not in that of its inputs
  have hleads := s.leads_iff_reaches.mpr hreaches
  obtain ⟨l, k, hat, hnot, hsize, hinside⟩ :=
    s.exists_at (hbuilt.of_runsCode hruns).2 hinputs hleads hnext hown
  obtain ⟨m, hm, hminds⟩ := s.minds (P := P) (fun _ _ ht => ht.1) (fun hg _ _ ht => ht.2 hg) hbuilt
    hruns hinputs hreenters hat
  rw [← s.re_eq, ← s.pins_eq] at hcall
  -- what follows the call
  obtain ⟨o, hleads', hhands⟩ := hminds (by rw [hm]; exact s.within) hreenters (by rw [hm]; exact hat)
    hnot hsize hcall ⟨hflow, herror⟩
  rw [hinside] at hleads
  rw [hm] at hhands
  rcases hhands with ⟨w₂, hrestores, rfl⟩ | ⟨regs, rfl, hvalue⟩
  · exact ⟨w₂, hrestores, s.hands_of_returned hroutine hlink (hleads.trans hleads')⟩
  · refine ⟨w₁, .refl, .inr ⟨regs, name, routine, code, hroutine, hlink, ?_⟩⟩
    exact s.ends_done_iff.mpr ⟨hleads.trans hleads', hvalue.symm⟩

/-- A statement gets what the list comes to that it has run. -/
theorem Node.HasRun.gets {list t : Ref} {held : Pins} {w₁ w₂ : World}
    (hrun : Node.HasRun re h pins w node list held w₁) (hlist : re.list held list w₁ = .ok (t, w₂)) :
    Node.Gets re h pins w node t w₂ := by
  cases hrun with
  | intro hroutine hlink hinputs hreaches hnext hown =>
    exact .intro hroutine hlink hinputs hreaches hnext hown rfl (map_datum_apply hlist)

/-- **A control statement hands on the token of a list that it has run.** -/
theorem Node.HasRun.hands (hbuilt : (Node.call head inputs).Built h)
    (hcontrol : head.generator.isControl = true) {list : Ref} {held : Pins} {w₁ w₂ : World}
    (hrun : Node.HasRun re h pins w (.call head inputs) list held w₁) {t source : Ref}
    {value : Option Ref} (hlist : re.list held list w₁ = .ok (t, w₂))
    (ht : w₂.heap.get t = .ret source value) :
    ∃ w₃, w₂.Restores w₃ ∧ (Node.call head inputs).Hands re h pins w t w₃ := by
  refine (hrun.gets hlist).hands hbuilt (Generator.runsCode_of_isControl hcontrol) ?_ ?_
  · rw [Heap.isFlow, ht]
    exact Object.isFlow_of_kind .ret rfl (by decide)
  · rw [ht]
    exact fun _ => rfl

end

end LogoEngine
