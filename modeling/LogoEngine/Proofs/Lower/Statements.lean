import LogoEngine.Proofs.Lower.Alone

/-!
# Statements

A statement is a node at the top of a parse. **On its own** it is lowered and run for whatever it
comes to: it is done and leaves a value, or it returns from the routine before that. In the routine
of a parse the same code stands among that of other statements, and it does the same there.

Main statement: `Stage.Waits.statement`, a run that comes to the code of a statement goes on as the
statement does on its own.
-/

namespace LogoEngine

/-- The code of a statement: its value as an object, or whatever stands for none. -/
def lowerStatement (h : Heap) (node : Node) : Lower Reg := do
  let raw ← lowerNode h node .datumOrNothing
  Emit.cast raw (h.displayName node.ref) node.returns .datumOrNothing

/-- The routine of a statement on its own, which returns the value of the statement. -/
def soloRoutine (h : Heap) (name : String) (node : Node) : Except CompileError Routine :=
  match (lowerStatement h node).run {} with
  | (.ok r, d) => .ok ((closeRoutine r d).2.routine name ⟨0⟩)
  | (.error e, _) => .error e

/-- What the code of a statement comes to. -/
inductive Ending where
  /-- It returned from the routine, and the statement has no value. -/
  | left (r : Ref) (w : World)
  /-- It came to its end with a value, and with these registers. -/
  | done (value : Ref) (regs : Array Value) (w : World)

/-- The code of a statement on its own ends: it returns from its last block if it comes to its end,
and from any other block if it leaves. -/
def Linked.Ends (re : Reenter) (pins : Pins) (code : Linked) (w : World) : Ending → Prop
  | .left r w' => ∃ c,
      Machine.Reaches re (.constants code.constants :: pins) code 0 (Machine.start code w) c ∧
      c.position + 1 < code.blocks.size ∧
      Machine.step re (.constants code.constants :: pins) code 0 c = .ok (.returned r w')
  | .done value regs w' => ∃ c,
      Machine.Reaches re (.constants code.constants :: pins) code 0 (Machine.start code w) c ∧
      c.position + 1 = code.blocks.size ∧ c.regs = regs ∧
      Machine.step re (.constants code.constants :: pins) code 0 c = .ok (.returned value w')

/-- A statement, lowered by itself and run with the objects of `pins` held, ends. -/
def Node.Ends (re : Reenter) (h : Heap) (pins : Pins) (node : Node) (w : World) (ending : Ending) :
    Prop :=
  ∃ name routine code, soloRoutine h name node = .ok routine ∧ routine.link .machine = .ok code ∧
    code.Ends re pins w ending

section

variable {h : Heap} {node : Node}

/-! ### The code of a statement -/

theorem lowerStatement_spec (hbuilt : node.Built h) (d : Draft) :
    Lower.Spec (lowerStatement h node) d (node.fits h = true) (fun _ => True) (fun _ => True)
      fun types r => Declares types r .datum := by
  refine (hbuilt.lowers .datumOrNothing d).bind fun raw d₁ _ hraw => ?_
  exact (Lower.Spec.lift (Emit.cast_spec hraw)).mono (fun h => h) (fun _ _ h => h)
    fun _ _ _ => trivial

theorem lowerStatement_moves (hbuilt : node.Built h) (base : Draft) :
    Lower.Moves base (lowerStatement h node) (lowerStatement h node) :=
  .bind (hbuilt.relocates base _) fun _ _ _ => .lift inferInstance

/-- The code of a statement on its own: the register of its value and the finished draft. -/
structure Solo (h : Heap) (node : Node) (r : Reg) (d : Draft) : Prop where
  run : (lowerStatement h node).run {} = (.ok r, d)
  declares : Declares d.types r .datum
  sound : ∃ marked : Label → Prop, marked ⟨0⟩ ∧ 0 < d.nextLabel ∧
    d.Sound (closeRoutine r d).2 d.nextLabel marked []

theorem exists_solo (hbuilt : node.Built h) : ∃ r d, Solo h node r d := by
  obtain ⟨r, d, hrun, hle, hr, hleads⟩ := lowerStatement_spec hbuilt {}
  have hstart : Draft.Sound {} (closeRoutine r d).2 1 (fun _ => True) [] :=
    ⟨by simp, by simp, by simp, by simp [List.range_succ], by simp⟩
  obtain ⟨marked, -, hagree, hsound, -, -⟩ := hleads (closeRoutine r d).2 False False.elim
    (Draft.Followed.refl (d := (closeRoutine r d).2)).within (fun _ => True) [] (fun h => h.elim)
    hstart fun _ => trivial
  exact ⟨r, d, hrun, hr, marked, (hagree ⟨0⟩ Nat.zero_lt_one).mpr trivial, hle.nextLabel_le, hsound⟩

namespace Solo

variable {r : Reg} {d : Draft} (hsolo : Solo h node r d)

include hsolo

theorem wellFormed (name : String) : ((closeRoutine r d).2.routine name ⟨0⟩).WellFormed := by
  obtain ⟨marked, hmarked, hlt, hsound⟩ := hsolo.sound
  have hfinished := hsound.finished (r := r) hsolo.declares
  exact Draft.Finished.wellFormed hfinished hmarked hlt

/-! ### On the machine -/

/-- The end of the code is the last block, and the others come before it. -/
theorem place (name : String) :
    ((closeRoutine r d).2.routine name ⟨0⟩).labels.idxOf d.label = d.blocks.size ∧
      ∀ b ∈ d.blocks,
        ((closeRoutine r d).2.routine name ⟨0⟩).labels.idxOf b.label < d.blocks.size := by
  have hlabels : ((closeRoutine r d).2.routine name ⟨0⟩).labels =
      d.blocks.toList.map Block.label ++ [d.label] := by
    show (d.blocks.push _).toList.map Block.label = _
    rw [Array.toList_push, List.map_append]
    rfl
  have hnodup := (hsolo.wellFormed name).labels
  rw [hlabels] at hnodup ⊢
  have hlength : (d.blocks.toList.map Block.label).length = d.blocks.size := by simp
  have hnew : d.label ∉ d.blocks.toList.map Block.label :=
    fun hmem => (List.disjoint_of_nodup_append hnodup) hmem (List.mem_singleton.mpr rfl)
  refine ⟨?_, fun b hb => ?_⟩
  · rw [List.idxOf_append_of_notMem hnew, hlength]
    simp
  · have hmem : b.label ∈ d.blocks.toList.map Block.label :=
      List.mem_map.mpr ⟨b, Array.mem_toList_iff.mpr hb, rfl⟩
    rw [List.idxOf_append_of_mem hmem, ← hlength]
    exact List.idxOf_lt_length_of_mem hmem

end Solo

/-- The linked code of a statement on its own, as a stage. -/
structure SoloStage (h : Heap) (node : Node) (re : Reenter) (pins : Pins) (code : Linked) where
  reg : Reg
  draft : Draft
  solo : Solo h node reg draft
  stage : Stage
  re_eq : stage.re = re
  pins_eq : stage.pins = .constants code.constants :: pins
  block_eq : stage.block = 0
  code_eq : stage.code = code
  final_eq : stage.final = (closeRoutine reg draft).2
  size_eq : code.blocks.size = draft.blocks.size + 1
  start_eq : ∀ w, Machine.Outcome.running (Machine.start code w) =
    stage.here {} w (initialRegisters code.types)
  last_eq : stage.place draft.label = draft.blocks.size
  place_lt : ∀ b ∈ draft.blocks, stage.place b.label < draft.blocks.size

theorem exists_soloStage (hbuilt : node.Built h) (re : Reenter) (pins : Pins) (name : String) :
    ∃ routine code, soloRoutine h name node = .ok routine ∧ routine.link .machine = .ok code ∧
      Nonempty (SoloStage h node re pins code) := by
  obtain ⟨r, d, hsolo⟩ := exists_solo hbuilt
  have hwell := hsolo.wellFormed name
  obtain ⟨code, hlink, hfollows⟩ :=
    ((closeRoutine r d).2.routine name ⟨0⟩).exists_link .machine hwell.entry hwell.targets
  refine ⟨_, code, by rw [soloRoutine, hsolo.run], hlink, ⟨{
    reg := r
    draft := d
    solo := hsolo
    stage := hfollows.stage hwell.labels re pins 0
    re_eq := rfl
    pins_eq := rfl
    block_eq := rfl
    code_eq := rfl
    final_eq := rfl
    size_eq := ?_
    start_eq := fun w => ?_
    last_eq := (hsolo.place name).1
    place_lt := (hsolo.place name).2 }⟩⟩
  · have hlength := hfollows.blocks.length_eq
    rw [Array.length_toList] at hlength
    rw [← hlength]
    show (d.blocks.push _).toList.length = _
    simp
  · rw [Machine.start, Routine.Locates.eq_idxOf hwell.labels hfollows.entry]
    rfl

namespace SoloStage

variable {re : Reenter} {pins : Pins} {code : Linked} (t : SoloStage h node re pins code)

theorem within : t.draft.Within t.stage.final := by
  rw [t.final_eq]
  exact Draft.Followed.refl.within

/-- The last block. -/
theorem exists_last : ∃ b, t.stage.code.blocks[t.draft.blocks.size]? = some b ∧
    b.body = t.draft.body.toList ∧ b.exit = .ret t.reg := by
  obtain ⟨b, hb, hbody, hexit⟩ := t.stage.blocks ⟨t.draft.label, t.draft.body.toList, .ret t.reg⟩
    (by rw [t.final_eq]; exact Array.mem_push.mpr (.inr rfl))
  rw [t.last_eq] at hb
  exact ⟨b, hb, hbody, hexit⟩

/-- A run at the end of the code stands in the last block with nothing left to do. -/
theorem here_draft (w : World) (regs : Array Value) :
    t.stage.here t.draft w regs = .running ⟨w, regs, t.draft.blocks.size, []⟩ := by
  obtain ⟨b, hb, hbody, -⟩ := t.exists_last
  rw [Stage.here_eq (by rw [t.last_eq]; exact hb), t.last_eq, hbody]
  simp

/-- The end of the code is left with the value of the statement. -/
theorem step_iff {c : Config} (hlast : c.position = t.draft.blocks.size) {value : Ref}
    {w' : World} :
    t.stage.Step (.running c) (.returned value w') ↔
      .running c = t.stage.here t.draft w' c.regs ∧ value = (readReg c.regs t.reg).asDatum := by
  obtain ⟨b, hb, -, hexit⟩ := t.exists_last
  obtain ⟨w, regs, position, rest⟩ := c
  obtain rfl : position = t.draft.blocks.size := hlast
  rw [here_draft]
  constructor
  · rintro ⟨_, ⟨⟩, hstep⟩
    unfold Machine.step at hstep
    split at hstep
    · split at hstep <;> cases hstep
    · next hrest =>
      simp only [Machine.leave, hb, hexit, Except.ok.injEq, Machine.Outcome.returned.injEq] at hstep
      obtain ⟨rfl, rfl⟩ := hstep
      exact ⟨by rw [show rest = [] from hrest], rfl⟩
  · rintro ⟨hc, rfl⟩
    simp only [Machine.Outcome.running.injEq, Config.mk.injEq] at hc
    obtain ⟨rfl, -, -, rfl⟩ := hc
    exact ⟨_, rfl, by simp only [Machine.step, Machine.leave, hb, hexit]⟩

theorem here_draft_inj {w w' : World} {regs regs' : Array Value}
    (heq : t.stage.here t.draft w regs = t.stage.here t.draft w' regs') : w = w' ∧ regs = regs' := by
  rw [here_draft, here_draft] at heq
  cases heq
  exact ⟨rfl, rfl⟩

theorem step_here (w : World) (regs : Array Value) :
    t.stage.Step (t.stage.here t.draft w regs) (.returned (readReg regs t.reg).asDatum w) := by
  rw [here_draft]
  exact (t.step_iff rfl).mpr ⟨(t.here_draft w regs).symm, rfl⟩

private theorem step_iff_step {c : Config} {o : Machine.Outcome} :
    t.stage.Step (.running c) o ↔
      Machine.step re (.constants code.constants :: pins) code 0 c = .ok o := by
  unfold Stage.Step
  rw [t.re_eq, t.pins_eq, t.block_eq, t.code_eq]
  constructor
  · rintro ⟨_, ⟨⟩, hstep⟩
    exact hstep
  · exact fun hstep => ⟨c, rfl, hstep⟩

theorem leads_iff_reaches {w : World} {c : Config} :
    t.stage.Leads (t.stage.here {} w (initialRegisters code.types)) (.running c) ↔
      Machine.Reaches re (.constants code.constants :: pins) code 0 (Machine.start code w) c := by
  rw [← t.start_eq, Stage.leads_running_iff, t.re_eq, t.pins_eq, t.block_eq, t.code_eq]

theorem ends_left_iff {w w' : World} {r : Ref} : code.Ends re pins w (.left r w') ↔
    ∃ c, t.stage.Leads (t.stage.here {} w (initialRegisters code.types)) (.running c) ∧
      t.stage.Step (.running c) (.returned r w') ∧ c.position < t.draft.blocks.size := by
  simp only [Linked.Ends, t.size_eq, Nat.add_lt_add_iff_right, t.leads_iff_reaches,
    t.step_iff_step]
  grind

theorem ends_done_iff {w w' : World} {value : Ref} {regs : Array Value} :
    code.Ends re pins w (.done value regs w') ↔
      t.stage.Leads (t.stage.here {} w (initialRegisters code.types))
        (t.stage.here t.draft w' regs) ∧ value = (readReg regs t.reg).asDatum := by
  simp only [Linked.Ends, t.size_eq, Nat.add_right_cancel_iff, ← t.leads_iff_reaches,
    ← t.step_iff_step]
  constructor
  · rintro ⟨c, hleads, hlast, rfl, hstep⟩
    obtain ⟨hc, hvalue⟩ := (t.step_iff hlast).mp hstep
    exact ⟨hc ▸ hleads, hvalue⟩
  · rintro ⟨hleads, hvalue⟩
    rw [here_draft] at hleads
    refine ⟨_, hleads, rfl, rfl, (t.step_iff rfl).mpr ⟨?_, hvalue⟩⟩
    rw [here_draft]

theorem proper (hsteady : re.Steady) : t.stage.Proper where
  steady := by rw [t.re_eq]; exact hsteady
  constants c hc := by
    rw [t.code_eq] at hc
    rw [t.pins_eq]
    exact Pins.mem_held_cons.mpr (.inl (Array.mem_toList_iff.mpr hc))

theorem constants_eq (t : SoloStage h node re pins code) {r : Reg} {d : Draft}
    (hrun : (lowerStatement h node).run {} = (.ok r, d)) : code.constants = d.constants := by
  have hdraft : t.draft = d := congrArg Prod.snd (t.solo.run.symm.trans hrun)
  calc code.constants = t.stage.final.constants := by rw [← t.stage.constants, t.code_eq]
    _ = t.draft.constants := by rw [t.final_eq]; rfl
    _ = d.constants := by rw [hdraft]

/-- A statement on its own, up to the end of its code. -/
def ownCode : OwnCode (lowerStatement h node) where
  reg := t.reg
  draft := t.draft
  stage := t.stage
  run := t.solo.run
  reg_lt := t.solo.declares.lt_size
  within := t.within
  constants_eq := (congrArg Draft.constants t.final_eq).trans rfl
  sound := by
    obtain ⟨marked, -, hlt, hsound⟩ := t.solo.sound
    exact ⟨(closeRoutine t.reg t.draft).2, marked, rfl, hlt, hsound⟩

end SoloStage

/-- A statement that ends does so on a stage. -/
theorem Node.Ends.exists_stage {re : Reenter} {pins : Pins} {w : World} {ending : Ending}
    (hends : node.Ends re h pins w ending) (hbuilt : node.Built h) :
    ∃ code, ∃ _ : SoloStage h node re pins code, code.Ends re pins w ending := by
  obtain ⟨name, routine, code, hroutine, hlink, hends⟩ := hends
  obtain ⟨routine', code', hroutine', hlink', ⟨t⟩⟩ := exists_soloStage hbuilt re pins name
  obtain rfl : routine = routine' := Except.ok.inj (hroutine.symm.trans hroutine')
  obtain rfl : code = code' := Except.ok.inj (hlink.symm.trans hlink')
  exact ⟨code, t, hends⟩

/-- Code ends the same whatever its name. -/
theorem Linked.Ends.rename {re : Reenter} {pins : Pins} {code : Linked} {w : World} {ending : Ending}
    (hends : code.Ends re pins w ending) (name : String) :
    ({ code with name := name } : Linked).Ends re pins w ending := by
  cases ending <;> exact hends

/-- The codes of a statement on its own differ in their names only. -/
theorem eq_of_soloRoutine (hbuilt : node.Built h) {name name' : String} {routine routine' : Routine}
    {code code' : Linked} (hroutine : soloRoutine h name node = .ok routine)
    (hlink : routine.link .machine = .ok code) (hroutine' : soloRoutine h name' node = .ok routine')
    (hlink' : routine'.link .machine = .ok code') : { code' with name := code.name } = code := by
  obtain ⟨r, d, hsolo⟩ := exists_solo hbuilt
  rw [soloRoutine, hsolo.run] at hroutine hroutine'
  cases hroutine
  cases hroutine'
  have hfollows := Routine.follows_of_link _ hlink
  have hfollows' := Routine.follows_of_link _ hlink'
  rw [hfollows'.eq_placed (hsolo.wellFormed name').labels]
  exact (hfollows.eq_placed (hsolo.wellFormed name).labels).symm

/-- The last step of a statement on its own says how it ends. -/
theorem SoloStage.exists_of_ends {re : Reenter} {pins : Pins} {code : Linked}
    (t : SoloStage h node re pins code) {w : World} {ending : Ending}
    (hends : code.Ends re pins w ending) :
    ∃ c r w', t.stage.Leads (t.stage.here {} w (initialRegisters code.types)) (.running c) ∧
      t.stage.Step (.running c) (.returned r w') ∧
      ending = if c.position < t.draft.blocks.size then .left r w' else .done r c.regs w' := by
  cases ending with
  | left r w' =>
    obtain ⟨c, hleads, hstep, hlt⟩ := t.ends_left_iff.mp hends
    exact ⟨c, r, w', hleads, hstep, (if_pos hlt).symm⟩
  | done v regs w' =>
    obtain ⟨hleads, rfl⟩ := t.ends_done_iff.mp hends
    have hstep := t.step_here w' regs
    rw [t.here_draft] at hleads hstep
    exact ⟨_, _, w', hleads, hstep, (if_neg (Nat.lt_irrefl _)).symm⟩

/-- A statement ends as any of its codes does. -/
theorem Node.Ends.of_code {re : Reenter} {pins : Pins} {w : World} {ending : Ending}
    (hends : node.Ends re h pins w ending) (hbuilt : node.Built h) {name : String} {routine : Routine}
    {code : Linked} (hroutine : soloRoutine h name node = .ok routine)
    (hlink : routine.link .machine = .ok code) : code.Ends re pins w ending := by
  obtain ⟨name', routine', code', hroutine', hlink', hends⟩ := hends
  rw [← eq_of_soloRoutine hbuilt hroutine hlink hroutine' hlink']
  exact hends.rename code.name

/-- **A statement has one ending** at most. -/
theorem Node.Ends.unique {re : Reenter} {pins : Pins} {w : World} {ending ending' : Ending}
    (hbuilt : node.Built h) (hends : node.Ends re h pins w ending)
    (hends' : node.Ends re h pins w ending') : ending = ending' := by
  obtain ⟨routine, code, hroutine, hlink, ⟨t⟩⟩ := exists_soloStage hbuilt re pins ""
  obtain ⟨c, r, w₁, hleads, hstep, rfl⟩ := t.exists_of_ends (hends.of_code hbuilt hroutine hlink)
  obtain ⟨c', r', w₁', hleads', hstep', rfl⟩ := t.exists_of_ends (hends'.of_code hbuilt hroutine hlink)
  -- a run returns once
  obtain rfl := hleads.returns_once hleads' hstep hstep'
  cases Stage.step_unique hstep hstep'
  rfl

/-! ### In the routine of a parse -/

variable {s : Stage} {limit : Nat} {pins : Pins} {base copy : Draft} {found : Array Value}
  {value : Reg}

/-- A run that comes to the code of a statement, beside the statement on its own. -/
theorem Stage.Waits.exists_beside (hwaits : s.Waits limit pins base found) (hproper : s.Proper)
    (hbuilt : node.Built h) (hwithin : copy.Within s.final)
    (hlimit : copy.types.size ≤ limit)
    (hrun : (lowerStatement h node).run base = (.ok value, copy)) {code : Linked}
    (t : SoloStage h node s.re pins code) (w : World) :
    ∃ twins : Twins, twins.own = t.stage ∧ twins.host = s ∧ twins.code = t.draft ∧
      twins.Beside (t.stage.here {} w (initialRegisters code.types)) (s.here base w found) ∧
      ∀ {o o'}, twins.Done o o' → ∃ w' regs found', o = t.stage.here t.draft w' regs ∧
        o' = s.here copy w' found' ∧ s.Waits limit (.registers regs :: pins) copy found' ∧
        (readReg found' value).asDatum = (readReg regs t.reg).asDatum ∧
        ∀ r : Reg, r.index < base.types.size → readReg found' r = readReg found r := by
  have htypes : t.stage.final.types = code.types := by
    rw [← t.stage.types, t.code_eq]
  have hpins : t.stage.pins = .constants t.stage.code.constants :: pins := by
    rw [t.pins_eq, t.code_eq]
  obtain ⟨twins, hown, hhost, hcode, -, hbeside, hdone⟩ := hwaits.beside_own t.ownCode t.re_eq hpins
    hproper (lowerStatement_moves hbuilt base) hwithin hlimit hrun w
  refine ⟨twins, hown, hhost, hcode, htypes ▸ hbeside, fun {o o'} ho => ?_⟩
  obtain ⟨w', regs, found', ho, ho', hwaits', hvalue, hkept⟩ := hdone ho
  exact ⟨w', regs, found', ho, ho', hwaits', congrArg Value.asDatum hvalue, hkept⟩

section

variable (hwaits : s.Waits limit pins base found) (hproper : s.Proper) (hbuilt : node.Built h)
  (hwithin : copy.Within s.final) (hlimit : copy.types.size ≤ limit)
  (hrun : (lowerStatement h node).run base = (.ok value, copy)) {w w' : World} {r : Ref}

include hwaits hproper hbuilt hwithin hlimit hrun

/-- A statement that leaves on its own leaves in the routine of a parse. -/
theorem Stage.Waits.leads_of_left (hends : node.Ends s.re h pins w (.left r w')) :
    s.Leads (s.here base w found) (.returned r w') := by
  obtain ⟨code, t, hends⟩ := hends.exists_stage hbuilt
  obtain ⟨c, hleads, hstep, hposition⟩ := t.ends_left_iff.mp hends
  obtain ⟨twins, hown, rfl, -, hbeside, hdone⟩ :=
    hwaits.exists_beside hproper hbuilt hwithin hlimit hrun t w
  have hleads' : twins.own.Leads (t.stage.here {} w (initialRegisters code.types))
      (.returned r w') := by
    rw [hown]
    exact hleads.tail hstep
  rcases hbeside.leads_host hleads' with ⟨o, hhost, hbeside'⟩ | ⟨o₂, o₂', hdone', hown', -, -⟩
  · cases hbeside'
    exact hhost
  · -- a run that came to the end of the code returns from there
    obtain ⟨w₁, regs, found', rfl, -⟩ := hdone hdone'
    have hlast := t.step_here w₁ regs
    rw [hown] at hown'
    rw [t.here_draft] at hown' hlast
    have hsame := hleads.returns_once hown' hstep hlast
    rw [hsame] at hposition
    exact absurd hposition (Nat.lt_irrefl _)

/-- A statement that is done on its own is done in the routine of a parse, where it leaves all
registers of the code before it alone. -/
theorem Stage.Waits.leads_of_done {v : Ref} {regs : Array Value}
    (hends : node.Ends s.re h pins w (.done v regs w')) :
    ∃ found', s.Leads (s.here base w found) (s.here copy w' found') ∧
      s.Waits limit (.registers regs :: pins) copy found' ∧ (readReg found' value).asDatum = v ∧
      ∀ r : Reg, r.index < base.types.size → readReg found' r = readReg found r := by
  obtain ⟨code, t, hends⟩ := hends.exists_stage hbuilt
  obtain ⟨hleads, rfl⟩ := t.ends_done_iff.mp hends
  obtain ⟨twins, hown, rfl, hcode, hbeside, hdone⟩ :=
    hwaits.exists_beside hproper hbuilt hwithin hlimit hrun t w
  -- once the host has come to the end of the code, the registers are what is left to say
  have hfinish : ∀ {o'}, twins.host.Leads (twins.host.here base w found) o' →
      twins.Done (t.stage.here t.draft w' regs) o' →
      ∃ found', twins.host.Leads (twins.host.here base w found)
          (twins.host.here copy w' found') ∧
        twins.host.Waits limit (.registers regs :: pins) copy found' ∧
        (readReg found' value).asDatum = (readReg regs t.reg).asDatum ∧
        ∀ r : Reg, r.index < base.types.size → readReg found' r = readReg found r := by
    intro o' hhost hdone'
    obtain ⟨w₁, regs₁, found', ho, rfl, hafter⟩ := hdone hdone'
    obtain ⟨rfl, rfl⟩ := t.here_draft_inj ho
    exact ⟨found', hhost, hafter⟩
  have hleads' : twins.own.Leads (t.stage.here {} w (initialRegisters code.types))
      (t.stage.here t.draft w' regs) := by
    rw [hown]
    exact hleads
  rcases hbeside.leads_host hleads' with
    ⟨o, hhost, hbeside'⟩ | ⟨o₂, o₂', hdone', -, hafter, hhost⟩
  · rcases hbeside'.step with hdone' | ⟨r, w₁, hreturned, -⟩ | ⟨c, c', hc, -, -, hleaving⟩
    · exact hfinish hhost hdone'
    · rw [t.here_draft] at hreturned
      cases hreturned
    · -- the last block is none of those the code has closed
      rw [t.here_draft] at hc
      cases hc
      have hstep := t.step_here w' regs
      rw [t.here_draft, ← hown] at hstep
      obtain ⟨_, ⟨⟩, hstep⟩ := hstep
      obtain ⟨b, hb, hplace⟩ := hleaving _ _ hstep
      have hlt := t.place_lt b (hcode ▸ hb)
      rw [← hown, ← hplace] at hlt
      exact absurd hlt (Nat.lt_irrefl _)
  · obtain ⟨w₁, regs₁, found', rfl, -⟩ := hdone hdone'
    rw [hown] at hafter
    rcases hafter.of_returns (t.step_here w₁ regs₁) with hsame | hreturned
    · exact hfinish hhost (hsame ▸ hdone')
    · rw [t.here_draft] at hreturned
      cases hreturned

/-- **A run that comes to a statement and returns** has left the statement, or was done with it and
returned later. -/
theorem Stage.Waits.ends_of_returns (hleads : s.Leads (s.here base w found) (.returned r w')) :
    node.Ends s.re h pins w (.left r w') ∨
      ∃ v regs w₁ found', node.Ends s.re h pins w (.done v regs w₁) ∧
        s.Waits limit (.registers regs :: pins) copy found' ∧ (readReg found' value).asDatum = v ∧
        s.Leads (s.here copy w₁ found') (.returned r w') := by
  obtain ⟨routine, code, hroutine, hlink, ⟨t⟩⟩ := exists_soloStage hbuilt s.re pins ""
  have hends : ∀ {ending}, code.Ends s.re pins w ending → node.Ends s.re h pins w ending :=
    fun h => ⟨"", routine, code, hroutine, hlink, h⟩
  obtain ⟨twins, hown, rfl, hcode, hbeside, hdone⟩ :=
    hwaits.exists_beside hproper hbuilt hwithin hlimit hrun t w
  rcases hbeside.returns_own hleads with
    hreturned | ⟨c, hown', hstep, b, hb, hplace⟩ | ⟨o₂, o₂', hdone', hown', -, hafter⟩
  · rw [← t.start_eq] at hreturned
    cases hreturned
  · left
    rw [hown] at hown' hstep hplace
    refine hends (t.ends_left_iff.mpr ⟨c, hown', hstep, ?_⟩)
    rw [hplace]
    exact t.place_lt b (hcode ▸ hb)
  · right
    obtain ⟨w₁, regs, found', rfl, rfl, hwaits', hvalue, -⟩ := hdone hdone'
    rw [hown] at hown'
    exact ⟨_, regs, w₁, found', hends (t.ends_done_iff.mpr ⟨hown', rfl⟩), hwaits', hvalue, hafter⟩

end

/-! ### Alone -/

theorem Machine.step_congr {re : Reenter} {pins pins' : Pins} (hre : re.Steady)
    (h : Pins.Alike pins pins') : Machine.step re pins = Machine.step re pins' := by
  funext code block c
  simp only [Machine.step, runInstr_congr hre h]

/-- Code ends the same under pins that are alike. -/
theorem Linked.Ends.congr {re : Reenter} {pins pins' : Pins} {code : Linked} {w : World}
    {ending : Ending} (hends : code.Ends re pins w ending) (hre : re.Steady)
    (h : Pins.Alike (.constants code.constants :: pins) (.constants code.constants :: pins')) :
    code.Ends re pins' w ending := by
  have hstep := Machine.step_congr hre h
  have hreaches : Machine.Reaches re (.constants code.constants :: pins) =
      Machine.Reaches re (.constants code.constants :: pins') := by
    unfold Machine.Reaches Machine.Moves
    rw [hstep]
  cases ending <;> simpa only [Linked.Ends, hreaches, hstep] using hends

section

variable {re : Reenter} {t v : Ref} {w w' : World} {regs : Array Value} {ending : Ending}
  (a : Alone (lowerStatement h node) re pins) (hsteady : re.Steady) (hbuilt : node.Built h)

include hsteady hbuilt

/-- The constants of a statement are held while it runs, so they may be held before. -/
theorem Alone.ends_iff : node.Ends a.stage.re h a.stage.pins w ending ↔
    node.Ends re h pins w ending := by
  obtain ⟨routine, code, hroutine, hlink, ⟨t⟩⟩ := exists_soloStage hbuilt re pins ""
  have hconstants : a.stage.code.constants = code.constants := by
    rw [t.constants_eq a.run, a.stage.constants, a.constants_eq]
  have halike : Pins.Alike (.constants code.constants :: a.stage.pins)
      (.constants code.constants :: pins) := fun c => by
    simp only [a.pins_eq, Pins.mem_held_cons, hconstants]
    grind
  rw [a.re_eq]
  constructor
  · intro hends
    exact ⟨"", routine, code, hroutine, hlink,
      (hends.of_code hbuilt hroutine hlink).congr hsteady halike⟩
  · intro hends
    exact ⟨"", routine, code, hroutine, hlink,
      (hends.of_code hbuilt hroutine hlink).congr hsteady halike.symm⟩

/-- **A statement leaves** if its code, run alone, returns. -/
theorem Alone.ends_left (hleads : a.stage.Leads (a.start w) (.returned t w')) :
    node.Ends re h pins w (.left t w') := by
  have hwaits := a.stage.waits_initial a.draft.types.size
  rw [Alone.start, ← a.stage.types] at hleads
  rcases hwaits.ends_of_returns (a.proper hsteady) hbuilt a.within (Nat.le_refl _) a.run hleads with
    hends | ⟨_, _, _, _, -, -, -, hreturns⟩
  · exact (a.ends_iff hsteady hbuilt).mp hends
  · exact absurd hreturns a.not_leads_returned

/-- The code of a statement that leaves returns when it is run alone. -/
theorem Alone.leads_of_left (hends : node.Ends re h pins w (.left t w')) :
    a.stage.Leads (a.start w) (.returned t w') := by
  rw [Alone.start, ← a.stage.types]
  exact (a.stage.waits_initial a.draft.types.size).leads_of_left (a.proper hsteady) hbuilt a.within
    (Nat.le_refl _) a.run ((a.ends_iff hsteady hbuilt).mpr hends)

/-- The code of a statement that is done comes to its end when it is run alone. -/
theorem Alone.exists_leads_of_done (hends : node.Ends re h pins w (.done v regs w')) :
    ∃ regs', a.stage.Leads (a.start w) (a.stage.here a.draft w' regs') ∧
      (readReg regs' a.reg).asDatum = v := by
  rw [Alone.start, ← a.stage.types]
  obtain ⟨regs', hleads, -, hvalue, -⟩ :=
    (a.stage.waits_initial a.draft.types.size).leads_of_done (a.proper hsteady) hbuilt a.within
      (Nat.le_refl _) a.run ((a.ends_iff hsteady hbuilt).mpr hends)
  exact ⟨regs', hleads, hvalue⟩

end

end

end LogoEngine
