import LogoEngine.Proofs.Emit.Judging
import LogoEngine.Proofs.Lower.Checked
import LogoEngine.Proofs.Lower.Handing
import LogoEngine.Proofs.Lower.Settling

/-!
# `AND` and `OR` at run time

The code of `AND` and `OR` evaluates and judges one input after the other, and leaves for the exit
once the answer is decided. `Choice` says what that comes to in terms of the inputs alone: each of
them is lowered by itself and run in a routine of its own. So nothing is said, and nothing holds,
about inputs behind the decisive one.

Main statement: `Stage.Waits.exists_choice`.
-/

namespace LogoEngine

/-! ### Inputs -/

/-- **What becomes of an input** of `AND` or `OR`. Its code, run alone, leaves, or has no end, or
comes to its end with a value, which is judged. What is held meanwhile is not said. -/
inductive Node.Judged (re : Reenter) (h : Heap) (who : Ref) (operand : Node) (w : World) :
    Verdict → Prop
  | left {held : Pins} {t : Ref} {w' : World}
      (hleaves : (lowerNode h operand .datumOrTruth).Leaves re held w t w') :
      Judged re h who operand w (.left t w')
  | value {held : Pins} {v : Value} {w₁ : World} {verdict : Verdict}
      (hfinishes : (lowerNode h operand .datumOrTruth).Finishes re held w v w₁)
      (hreads : ReadsInput re who operand.returns w₁ v verdict) :
      Judged re h who operand w verdict
  | stuck {held : Pins} (a : Alone (lowerNode h operand .datumOrTruth) re held)
      (hendless : a.Endless w) : Judged re h who operand w .stuck

/-- The code of an input of `AND` or `OR`, which leaves a truth value. -/
def judged (h : Heap) (who : Ref) (operand : Node) : Lower Reg := do
  let raw ← lowerNode h operand .datumOrTruth
  Emit.judge who operand.returns raw

section

variable {h : Heap} {head : NodeHead} {who : Ref} {operand : Node} {inputs rest : List Node}
  {d base copy : Draft} {conj : Bool} {result b : Reg} {exit : Label}

theorem lowerChoices_cons :
    lowerChoices h head conj result exit (operand :: rest) = (do
      let b ← judged h head.name operand
      Emit.move result b
      if rest.isEmpty then
        return ()
      else
        branchTo conj b exit
        lowerChoices h head conj result exit rest) := by
  have hlift : ∀ {α β : Type} (m : Emit α) (f : α → Emit β), (liftM (m >>= f) : Lower β) =
      (liftM m >>= fun a => liftM (f a)) := fun _ _ => rfl
  rw [lowerChoices]
  simp only [judged, Emit.judge, branchTo, hlift, bind_assoc]

theorem judged_spec (hlowers : operand.Lowers h) (who : Ref) (d : Draft) :
    Lower.Spec (judged h who operand) d (operand.fits h = true) (fun _ => True) (fun _ => True)
      fun types r => Declares types r .truth := by
  refine ((hlowers .datumOrTruth d).mono (fun h => h) (fun _ _ h => h) fun _ _ h => h).bind
    fun raw d₁ _ hraw => Lower.Spec.lift ?_
  refine (Emit.cast_spec hraw).bind fun value d₂ _ hvalue => ?_
  refine (Emit.Spec.of_emits fun s _ hs => s.emits_condition (by rw [hs.known]; exact hvalue.lt_size)
    (hs.is hvalue) (by simp only [Request.castTy]; split <;> simp)).mono (fun _ h => h)
      fun _ _ => trivial

theorem grows_judged (hlowers : operand.Lowers h) : Lower.Grows (judged h who operand) := by
  intro d b d' hrun
  obtain ⟨_, d₁, hrun', hbelow, -⟩ := judged_spec hlowers who d
  obtain rfl : d₁ = d' := congrArg Prod.snd (hrun'.symm.trans hrun)
  exact hbelow

theorem judged_moves (hrelocates : operand.Relocates h) (who : Ref) (base : Draft) :
    Lower.Moves base (judged h who operand) (judged h who operand) := by
  refine .bind (hrelocates base _) fun _ _ _ => .lift ?_
  unfold Emit.judge
  exact .bind inferInstance fun _ _ _ => inferInstance

end

section

variable {m : Lower Reg} {h : Heap} {who : Ref} {operand : Node} {re : Reenter} {pins : Pins}
  {w : World}

/-- What the code of an input does, run alone, as a verdict. -/
def Alone.Heeds (a : Alone m re pins) (w : World) : Verdict → Prop
  | .decided p w' => ∃ regs, a.stage.Leads (a.start w) (a.stage.here a.draft w' regs) ∧
      readReg regs a.reg = .truth p
  | .left t w' => a.stage.Leads (a.start w) (.returned t w')
  | .asked => True
  | .stuck => a.Endless w

/-- A run that has come to an instruction that fails has no end. -/
theorem Alone.endless_of_halts (a : Alone m re pins) {o : Machine.Outcome} {halt : Halt}
    (hleads : a.stage.Leads (a.start w) o) (hhalts : a.stage.Halts halt o) : a.Endless w := by
  obtain ⟨c, rfl, hhalt⟩ := hhalts
  have hlast : ∀ o', ¬a.stage.Step (.running c) o' := by
    rintro o' ⟨_, ⟨⟩, hstep⟩
    rw [hhalt] at hstep
    cases hstep
  have hcompare := fun o' (h : a.stage.Leads (a.start w) o') =>
    Relation.ReflTransGen.total_of_right_unique Stage.step_unique hleads h
  refine ⟨fun t w' hreturned => ?_, fun w' regs hdone => ?_⟩
  · rcases hcompare _ hreturned with h | h
    · rcases Relation.ReflTransGen.cases_head h with h | ⟨_, hstep, -⟩
      · cases h
      · exact hlast _ hstep
    · rcases Relation.ReflTransGen.cases_head h with h | ⟨_, ⟨_, hrunning, -⟩, -⟩
      · cases h
      · cases hrunning
  · rcases hcompare _ hdone with h | h
    · rcases Relation.ReflTransGen.cases_head h with h | ⟨_, hstep, -⟩
      · exact hlast _ (h ▸ a.step_here_draft w' regs)
      · exact hlast _ hstep
    · rcases a.leads_here_draft h with h | h
      · exact hlast _ (h ▸ a.step_here_draft w' regs)
      · exact hlast _ (h ▸ a.step_circle w' regs)

/-- **The code of an input, run alone**, does what becomes of the input. -/
theorem Alone.exists_judged (a : Alone (judged h who operand) re pins) (hsteady : re.Steady)
    (hbuilt : operand.Built h) (w : World) :
    ∃ verdict, operand.Judged re h who w verdict ∧ a.Heeds w verdict := by
  suffices hjudged : ∃ verdict, operand.Judged a.stage.re h who w verdict ∧ a.Heeds w verdict by
    obtain ⟨verdict, hjudged, hheeds⟩ := hjudged
    exact ⟨verdict, a.re_eq ▸ hjudged, hheeds⟩
  -- the code of the input alone is the first part of the code
  obtain ⟨raw, d₁, hrun, hlift⟩ := Lower.exists_of_run_bind a.run
  have hjudge := Lower.of_run_lift hlift
  obtain ⟨_, _, hrun', -, hraw, -⟩ := hbuilt.lowers .datumOrTruth {}
  obtain ⟨⟨⟩, rfl⟩ := Prod.ext_iff.mp (hrun.symm.trans hrun')
  have hjudges : (Emit.judge who operand.returns raw d₁).2 = a.draft := congrArg Prod.snd hjudge
  have hbelow : d₁.Below a.draft := hjudges ▸ .of_emit _
  have hwithin := hbelow _ a.within
  have hwaits := a.stage.waits_initial d₁.types.size
  have hproper := a.proper hsteady
  have hmoves := hbuilt.relocates {} .datumOrTruth
  obtain ⟨i⟩ := exists_alone (hbuilt.lowers .datumOrTruth {}) a.stage.re a.stage.pins
  have hdraft : i.draft = d₁ := congrArg Prod.snd (i.run.symm.trans hrun)
  have hstart : a.start w = a.stage.here {} w (initialRegisters a.stage.code.types) := by
    rw [Alone.start, a.stage.types]
  by_cases hleaves : ∃ t w', i.stage.Leads (i.start w) (.returned t w')
  · obtain ⟨t, w', hleads⟩ := hleaves
    have hreturns := i.leads_returned hwaits hproper hmoves hwithin (Nat.le_refl _) hrun hleads
    rw [← hstart] at hreturns
    exact ⟨.left t w', .left ⟨i, hleads⟩, hreturns⟩
  by_cases hdone : ∃ w₁ regs, i.stage.Leads (i.start w) (i.stage.here i.draft w₁ regs)
  · obtain ⟨w₁, regs, hleads⟩ := hdone
    have hfinishes : (lowerNode h operand .datumOrTruth).Finishes a.stage.re a.stage.pins w
      (readReg regs i.reg) w₁ := ⟨i, regs, hleads, rfl⟩
    obtain ⟨found, hcomes, hwaits₁, hvalue, -⟩ :=
      i.leads_copy hwaits hproper hmoves hwithin (Nat.le_refl _) hrun hleads
    rw [← hstart] at hcomes
    obtain ⟨hty, hvoid⟩ := (hfinishes.hasType hrun hraw).ty_eq
    have hcarries : Carries d₁ found raw (readReg regs i.reg) := ⟨hty ▸ hraw, hvalue⟩
    -- the value is judged where the code of the input ends
    have hruns : a.stage.Runs (Emit.judge who operand.returns raw) d₁ (a.stage.here d₁ w₁ found) _ :=
      Stage.runs_judge hwaits₁.size hcarries hvoid
    obtain ⟨o, hleads', verdict, hreads, hend⟩ := hruns (by rw [hjudges]; exact a.within)
    refine ⟨verdict, .value hfinishes hreads, ?_⟩
    rw [hjudge] at hend
    have hcomes' := hcomes.trans hleads'
    cases verdict with
    | decided p w' =>
      obtain ⟨regs', rfl, -, hb⟩ := hend
      exact ⟨regs', hcomes', hb.reads⟩
    | left t w' =>
      obtain rfl := hend
      exact hcomes'
    | asked => trivial
    | stuck =>
      obtain ⟨halt, hhalts⟩ := hend
      exact a.endless_of_halts hcomes' hhalts
  · have hendless : i.Endless w := ⟨fun t w' hleads => hleaves ⟨t, w', hleads⟩,
      fun w₁ regs hleads => hdone ⟨w₁, regs, hleads⟩⟩
    have hnot := fun o => i.not_leads_of_endless (o := o) hwaits hproper hmoves hwithin
      (Nat.le_refl _) hrun hendless
    rw [← hstart] at hnot
    refine ⟨.stuck, .stuck i hendless, fun t w' hreturns => ?_, fun w' regs hends => ?_⟩
    · exact hnot (.returned t w') (by rintro _ _ _ _ _ _ _ ⟨⟩) hreturns
    · -- a run that comes to the end of the code goes round in circles outside of it
      refine hnot _ (fun l body exit hs i' w₁ regs₁ heq => ?_) (hends.tail (a.step_here_draft w' regs))
      obtain ⟨_, _, -, -, hsound⟩ := i.sound
      rw [hdraft] at hsound
      have hposition := congrArg Config.position (Machine.Outcome.running.inj heq)
      have hlt := Nat.lt_of_lt_of_le (hsound.lt_nextLabel hs) hbelow.nextLabel_le
      exact a.apart l hlt hposition.symm

end

/-! ### Choices -/

/-- **What becomes of inputs** of `AND` (`conj`) or `OR` that are evaluated one after the other, with
the answers they gave. A decisive answer ends the choice, and so does an input without an answer. -/
inductive Choice (re : Reenter) (h : Heap) (who : Ref) (conj : Bool) :
    World → List Node → List Bool → Verdict → Prop
  | exhausted {w : World} : Choice re h who conj w [] [] (.decided conj w)
  | decisive {w w' : World} {operand : Node}
      (hinput : operand.Judged re h who w (.decided (!conj) w')) :
      Choice re h who conj w [operand] [!conj] (.decided (!conj) w')
  | next {w w' : World} {operand : Node} {seen : List Node} {answers : List Bool}
      {verdict : Verdict} (hinput : operand.Judged re h who w (.decided conj w'))
      (hrest : Choice re h who conj w' seen answers verdict) :
      Choice re h who conj w (operand :: seen) (conj :: answers) verdict
  | undecided {w : World} {operand : Node} {verdict : Verdict}
      (hinput : operand.Judged re h who w verdict) (hopen : ∀ p w', verdict ≠ .decided p w') :
      Choice re h who conj w [operand] [] verdict

namespace Choice

variable {re : Reenter} {h : Heap} {who : Ref} {conj p : Bool} {w w' : World} {seen : List Node}
  {answers : List Bool}

/-- Every input that is evaluated has given an answer. -/
theorem length_eq (hchoice : Choice re h who conj w seen answers (.decided p w')) :
    answers.length = seen.length := by
  generalize hverdict : Verdict.decided p w' = verdict at hchoice
  induction hchoice with
  | exhausted | decisive => rfl
  | next _ _ ih => rw [List.length_cons, List.length_cons, ih hverdict]
  | undecided _ hopen => exact absurd hverdict.symm (hopen p w')

/-- The result is the conjunction or disjunction of the answers. -/
theorem decided_eq (hchoice : Choice re h who conj w seen answers (.decided p w')) :
    p = if conj then answers.all id else answers.any id := by
  generalize hverdict : Verdict.decided p w' = verdict at hchoice
  induction hchoice with
  | exhausted | decisive =>
    cases hverdict
    cases conj <;> rfl
  | next _ _ ih =>
    rw [ih hverdict]
    cases conj <;> rfl
  | undecided _ hopen => exact absurd hverdict.symm (hopen p w')

end Choice

/-! ### The code of a choice -/

section

variable {s : Stage} {h : Heap} {head : NodeHead} {inputs rest : List Node} {limit : Nat}
  {pins : Pins} {d d' base copy : Draft} {found : Array Value} {conj p : Bool} {result b : Reg}
  {exit : Label} {w : World} {verdict : Verdict}

/-- Where a verdict leads a run in the routine of a host: on with an answer, out of the routine, or
nowhere. -/
def Stage.Heeds (s : Stage) (o : Machine.Outcome)
    (Arrives : Bool → World → Machine.Outcome → Prop) : Verdict → Prop
  | .decided p w => ∃ o', s.Leads o o' ∧ Arrives p w o'
  | .left t w => s.Leads o (.returned t w)
  | .asked => True
  | .stuck => ∀ t w, ¬s.Leads o (.returned t w)

theorem Stage.Heeds.of_leads {o o₁ : Machine.Outcome}
    {Arrives Arrives' : Bool → World → Machine.Outcome → Prop} (hheeds : s.Heeds o₁ Arrives verdict)
    (hleads : s.Leads o o₁) (harrives : ∀ p w o', verdict = .decided p w → Arrives p w o' →
      ∃ o'', s.Leads o' o'' ∧ Arrives' p w o'') : s.Heeds o Arrives' verdict := by
  cases verdict with
  | decided p w =>
    obtain ⟨o', hleads', harrive⟩ := hheeds
    obtain ⟨o'', hleads'', harrive'⟩ := harrives p w o' rfl harrive
    exact ⟨o'', (hleads.trans hleads').trans hleads'', harrive'⟩
  | left t w => exact hleads.trans hheeds
  | asked => trivial
  | stuck =>
    intro t w hreturns
    rcases Relation.ReflTransGen.total_of_right_unique Stage.step_unique hleads hreturns with
      hafter | hafter
    · exact hheeds t w hafter
    · rcases Relation.ReflTransGen.cases_head hafter with rfl | ⟨_, ⟨_, hrunning, -⟩, -⟩
      · exact hheeds t w .refl
      · cases hrunning

/-- A branch goes to the exit if the answer is decisive. -/
theorem Stage.runs_branchTo (hb : readReg found b = .truth p) :
    s.Runs (branchTo conj b exit) d (s.here d w found) fun _ d' o =>
      d.types.toList <+: d'.types.toList ∧
        o = if p = conj then s.here d' w found else s.at_ exit w found := by
  refine .bind (Stage.runs_freshLabel fun next d₁ hd₁ => Stage.runs_endBlock fun d₂ hd₂ hopens => ?_)
  refine ⟨hd₁.trans hd₂, ?_⟩
  rw [hopens]
  cases conj <;> cases p <;> simp [Stage.exitTo, hb, Value.asTruth]

theorem grows_after (hlowers : ∀ input ∈ rest, input.Lowers h) :
    Lower.Grows (if rest.isEmpty then return () else do
      branchTo conj b exit
      lowerChoices h head conj result exit rest : Lower Unit) := by
  split
  · exact .pure
  · exact (Lower.Grows.lift _).bind fun _ => grows_lowerChoices hlowers conj result exit

/-- What follows the answer of an input: the next input, if the answer is not decisive, or else the
exit. -/
theorem Stage.leads_after (hlowers : ∀ input ∈ rest, input.Lowers h)
    (hrun : (if rest.isEmpty then return () else do
      branchTo conj b exit
      lowerChoices h head conj result exit rest : Lower Unit).run d = (.ok (), d'))
    (hwithin : d'.Within s.final) (hb : readReg found b = .truth p) :
    (p = conj → ∃ d₁, s.Leads (s.here d w found) (s.here d₁ w found) ∧
      d.types.toList <+: d₁.types.toList ∧
        (lowerChoices h head conj result exit rest).run d₁ = (.ok (), d')) ∧
    (p ≠ conj → ∃ o, s.Leads (s.here d w found) o ∧
      (o = s.here d' w found ∨ o = s.at_ exit w found)) := by
  cases rest with
  | nil =>
    rw [List.isEmpty_nil, if_pos rfl] at hrun
    obtain rfl : d = d' := congrArg Prod.snd hrun
    refine ⟨fun _ => ⟨d, .refl, List.prefix_rfl, ?_⟩, fun _ => ⟨_, .refl, .inl rfl⟩⟩
    rw [lowerChoices]
    rfl
  | cons operand rest =>
    rw [List.isEmpty_cons, if_neg Bool.false_ne_true] at hrun
    obtain ⟨_, d₁, hbranch, hrun₁⟩ := Lower.exists_of_run_bind hrun
    obtain rfl : (branchTo conj b exit d).2 = d₁ := congrArg Prod.snd hbranch
    have hwithin₁ := grows_lowerChoices hlowers conj result exit _ _ _ hrun₁ _ hwithin
    obtain ⟨o, hleads, hgrow, ho⟩ := Stage.runs_branchTo (w := w) hb hwithin₁
    refine ⟨fun hp => ?_, fun hp => ?_⟩
    · rw [if_pos hp] at ho
      exact ⟨_, ho ▸ hleads, hgrow, hrun₁⟩
    · rw [if_neg hp] at ho
      exact ⟨o, hleads, .inr ho⟩

/-- The register of the answer holds it, and all other registers are as they were. -/
def Answered (d : Draft) (found : Array Value) (result : Reg) (p : Bool) (found' : Array Value) :
    Prop :=
  readReg found' result = .truth p ∧
    ∀ r : Reg, r.index < d.types.size → r.index ≠ result.index → readReg found' r = readReg found r

/-- **One input** in the routine of a host. If it gives an answer, that becomes the answer of the
choice. -/
theorem Stage.Waits.heeds_input {operand : Node} (hwaits : s.Waits limit pins d found)
    (hproper : s.Proper) (hbuilt : operand.Built h) (hresult : result.index < d.types.size)
    (hheld : (readReg found result).asDatum = Ref.nothing) {d₂ : Draft}
    (hrun : (judged h head.name operand).run d = (.ok b, d'))
    (hmove : (Emit.move result b d').2 = d₂) (hwithin : d₂.Within s.final)
    (hlimit : d₂.types.size ≤ limit) (w : World) :
    ∃ verdict, operand.Judged s.re h head.name w verdict ∧
      s.Heeds (s.here d w found) (fun p w' o => ∃ pins' found', o = s.here d₂ w' found' ∧
        s.Waits limit pins' d₂ found' ∧ readReg found' b = .truth p ∧
        Answered d found result p found') verdict := by
  subst hmove
  have hwithin' : d'.Within s.final := (Draft.Below.of_emit (Emit.move result b)) _ hwithin
  have hmoves := judged_moves hbuilt.relocates head.name d
  obtain ⟨a⟩ := exists_alone (judged_spec hbuilt.lowers head.name {}) s.re pins
  obtain ⟨verdict, hjudged, hheeds⟩ := a.exists_judged hproper.steady hbuilt w
  refine ⟨verdict, hjudged, ?_⟩
  cases verdict with
  | left t w' => exact a.leads_returned hwaits hproper hmoves hwithin' hlimit hrun hheeds
  | asked => trivial
  | stuck =>
    exact fun t w' => a.not_leads_of_endless hwaits hproper hmoves hwithin' hlimit hrun hheeds
      (fun _ _ _ _ _ _ _ => nofun)
  | decided p w' =>
    obtain ⟨regs, hleads, hp⟩ := hheeds
    obtain ⟨found₁, hcomes, hwaits₁, hvalue, hkept⟩ :=
      a.leads_copy hwaits hproper hmoves hwithin' hlimit hrun hleads
    rw [hp] at hvalue
    have hbelow := grows_judged hbuilt.lowers _ _ _ hrun
    have hle := hbelow.types_size_le
    have hlt : result.index < found₁.size := by
      have hfinal := hwithin'.types_size_le
      rw [hwaits₁.size]
      omega
    -- the old answer was no object, and neither is the new one
    have hold : (readReg found₁ result).asDatum = Ref.nothing := by
      rw [hkept result hresult, hheld]
    have htypes : d'.types.size ≤ (Emit.move result b d').2.types.size := Nat.le_refl _
    have hwaits₂ : s.Waits limit (.registers regs :: pins) (Emit.move result b d').2
        (writeReg found₁ result (.truth p)) :=
      hwaits₁.assign htypes hold (.inl (Nat.lt_of_lt_of_le hresult hle)) p
    have hmoved : s.Runs (Emit.move result b) d' (s.here d' w' found₁) fun _ d₂ o =>
        o = s.here d₂ w' (writeReg found₁ result (.truth p)) :=
      Stage.runs_move fun d₂ _ => by rw [hvalue]
    obtain ⟨o, hleads', rfl⟩ := hmoved hwithin
    refine ⟨_, hcomes.trans hleads', _, _, rfl, hwaits₂, ?_, readReg_writeReg_self hlt, ?_⟩
    · by_cases hsame : b.index = result.index
      · obtain rfl : b = result := by cases b; cases result; simp_all
        exact readReg_writeReg_self hlt
      · rw [readReg_writeReg_of_ne hsame, hvalue]
    · intro r hr hne
      rw [readReg_writeReg_of_ne hne, hkept r hr]

/-- **The inputs** of a choice in the routine of a host. The answer is in the register, at the end
of the code or at the exit, and inputs behind a decisive one are left out. -/
theorem Stage.Waits.heeds_choices (hproper : s.Proper) (hbuilt : ∀ input ∈ inputs, input.Built h)
    (hwaits : s.Waits limit pins d found) (hresult : result.index < d.types.size)
    (hheld : readReg found result = .truth conj)
    (hrun : (lowerChoices h head conj result exit inputs).run d = (.ok (), d'))
    (hwithin : d'.Within s.final) (hlimit : d'.types.size ≤ limit) (w : World) :
    ∃ seen rest answers verdict, inputs = seen ++ rest ∧
      Choice s.re h head.name conj w seen answers verdict ∧
      (∀ w', verdict = .decided conj w' → rest = []) ∧
      s.Heeds (s.here d w found) (fun p w' o => ∃ found',
        (o = s.here d' w' found' ∨ o = s.at_ exit w' found') ∧
          Answered d found result p found') verdict := by
  induction inputs generalizing d found pins w with
  | nil =>
    rw [lowerChoices] at hrun
    obtain rfl : d = d' := congrArg Prod.snd hrun
    exact ⟨[], [], [], .decided conj w, rfl, .exhausted, fun _ _ => rfl, _, .refl, found, .inl rfl,
      hheld, fun _ _ _ => rfl⟩
  | cons operand rest ih =>
    rw [List.forall_mem_cons] at hbuilt
    rw [lowerChoices_cons] at hrun
    obtain ⟨b, d₁, hrun₁, hrest⟩ := Lower.exists_of_run_bind hrun
    obtain ⟨_, d₂, hmove, hafter⟩ := Lower.exists_of_run_bind hrest
    have hlowers : ∀ input ∈ rest, input.Lowers h := fun input hinput =>
      (hbuilt.2 input hinput).lowers
    have hmoved : (Emit.move result b d₁).2 = d₂ := congrArg Prod.snd hmove
    have hbelow₁ := grows_judged hbuilt.1.lowers _ _ _ hrun₁
    have hbelow₂ : d₁.Below d₂ := hmoved ▸ .of_emit _
    have hbelow₃ : d₂.Below d' := grows_after hlowers _ _ _ hafter
    have hlimit₂ : d₂.types.size ≤ limit := hbelow₃.types_size_le.trans hlimit
    obtain ⟨verdict, hjudged, hheeds⟩ := hwaits.heeds_input hproper hbuilt.1 hresult
      (by rw [hheld]; rfl) hrun₁ hmoved (hbelow₃ _ hwithin) hlimit₂ w
    by_cases hopen : ∀ p w', verdict ≠ .decided p w'
    · exact ⟨[operand], rest, [], verdict, rfl, .undecided hjudged hopen,
        fun w' heq => absurd heq (hopen _ w'),
        hheeds.of_leads .refl fun p w' _ heq => absurd heq (hopen p w')⟩
    obtain ⟨p, w', rfl⟩ : ∃ p w', verdict = .decided p w' := by
      simpa only [ne_eq, not_forall, not_not] using hopen
    obtain ⟨_, hleads, pins', found₁, rfl, hwaits₁, hb, hanswered⟩ := hheeds
    obtain ⟨hgoes, hdecides⟩ := Stage.leads_after (w := w') hlowers hafter hwithin hb
    by_cases hp : p = conj
    · -- the next input is evaluated
      obtain ⟨d₃, hnext, hgrow, hrun₃⟩ := hgoes hp
      subst hp
      have hle := ((hbelow₁.trans hbelow₂).types.trans hgrow).length_le
      simp only [Array.length_toList] at hle
      obtain ⟨seen, rest', answers, verdict, rfl, hchoice, hend, hheeds⟩ :=
        ih hbuilt.2 (hwaits₁.grow hgrow) (Nat.lt_of_lt_of_le hresult hle) hanswered.1 hrun₃ w'
      refine ⟨operand :: seen, rest', p :: answers, verdict, rfl, .next hjudged hchoice, hend,
        hheeds.of_leads (hleads.trans hnext) ?_⟩
      rintro q w'' o - ⟨found₂, ho, hread, hkept⟩
      refine ⟨o, .refl, found₂, ho, hread, fun r hr hne => ?_⟩
      rw [hkept r (Nat.lt_of_lt_of_le hr hle) hne, hanswered.2 r hr hne]
    · -- the answer is decisive
      obtain ⟨o, hexit, ho⟩ := hdecides hp
      have hnot : p = !conj := by cases p <;> cases conj <;> simp_all
      subst hnot
      refine ⟨[operand], rest, [!conj], .decided (!conj) w', rfl, .decisive hjudged,
        fun _ hdecided => ?_, o, hleads.trans hexit, found₁, ho, hanswered⟩
      exact absurd (Verdict.decided.inj hdecided).1 hp

/-! ### The whole of a choice -/

/-- The register of an answer, with the answer that holds without inputs. -/
def Emit.openAnswer (conj : Bool) : Emit Reg := do
  let result ← Emit.freshReg .truth
  let initial ← Emit.truth conj
  Emit.move result initial
  return result

instance : Emit.Grows (Emit.openAnswer conj) := by
  unfold Emit.openAnswer
  infer_instance

theorem emitChoice_eq {noInputs : Bool} {inputs : Reg → Label → Lower Unit} :
    emitChoice conj noInputs inputs = (do
      let result ← Emit.openAnswer conj
      if noInputs then
        return result
      else
        let exit ← Emit.freshLabel
        inputs result exit
        Emit.endBlock (.jump exit) exit
        return result) :=
  rfl

/-- The answer that holds without inputs is in a new register. -/
theorem Stage.Waits.runs_openAnswer (hwaits : s.Waits limit pins d found) (conj : Bool) :
    s.Runs (Emit.openAnswer conj) d (s.here d w found) fun r d' o => ∃ found',
      o = s.here d' w found' ∧ s.Waits limit pins d' found' ∧ d.types.size ≤ r.index ∧
        r.index < d'.types.size ∧ readReg found' r = .truth conj ∧
        ∀ r' : Reg, r'.index < d.types.size → readReg found' r' = readReg found r' := by
  refine .bind (Stage.runs_freshReg fun result d₁ hnew hd₁ hdeclares => ?_)
  refine .bind (.bind (Stage.runs_freshReg fun initial d₂ hnew₂ hd₂ hdeclares₂ => .within fun hw => ?_))
  have hle₁ : d.types.size ≤ d₁.types.size := by simpa using hd₁.length_le
  have hle₂ : d₁.types.size ≤ d₂.types.size := by simpa using hd₂.length_le
  have hlt := hdeclares.lt_size
  have hlt₂ := hdeclares₂.lt_size
  have hfinal := hw.types_size_le
  have hsize := hwaits.size
  -- both registers are new and get the same truth value
  have hwaits₁ : s.Waits limit pins d₂ _ :=
    hwaits.write (hle₁.trans hle₂) (hle₁.trans hnew₂) (.inl hlt₂) conj
  have hinitial : readReg (writeReg found initial (.truth conj)) initial = .truth conj :=
    readReg_writeReg_self (by omega)
  have hold : (readReg (writeReg found initial (.truth conj)) result).asDatum = Ref.nothing := by
    rw [readReg_writeReg_of_ne (by omega)]
    exact hwaits.fresh result hnew
  have hwaits₂ : s.Waits limit pins d₂ _ :=
    hwaits₁.assign (Nat.le_refl _) hold (.inl (by omega)) conj
  refine .bind (Stage.runs_instr rfl (.pure (.bind (Stage.runs_move fun d₃ hd₃ => .pure ?_))))
  rw [hinitial]
  refine ⟨_, rfl, hwaits₂.grow hd₃, hnew, ?_, readReg_writeReg_self ?_, fun r hr => ?_⟩
  · have hle₃ := hd₃.length_le
    simp only [Array.length_toList] at hle₃
    exact Nat.lt_of_lt_of_le (Nat.lt_of_lt_of_le hlt hle₂) hle₃
  · rw [hwaits₁.size]
    omega
  · rw [readReg_writeReg_of_ne (by omega), readReg_writeReg_of_ne (by omega)]

private theorem Primitive.table_choices : ∀ row ∈ Primitive.table,
    (row.generator = .conjunction ∨ row.generator = .disjunction) →
      row.returns = .truth ∧ row.minInputs = 0 ∧ row.maxInputs = none := by
  decide +kernel

/-- `AND` (`conj`) and `OR` take any number of inputs, and have a truth value. -/
theorem Node.Built.of_choice (hbuilt : (Node.call head inputs).Built h)
    (hgenerator : head.generator = if conj then .conjunction else .disjunction) :
    head.returns = .truth ∧ arityFault? h head inputs.length = none ∧
      ∀ input ∈ inputs, input.Built h := by
  cases hbuilt with
  | primitive name row hname hrow hrow' hreturns hinputs =>
    obtain ⟨htruth, hmin, hmax⟩ := Primitive.table_choices row (Primitive.mem_of_find? hrow) (by
      rw [← hrow', hgenerator]
      cases conj <;> simp)
    have hfault : arityFault? h head inputs.length = none :=
      arityFault?_eq_none hname hrow hrow' (hmin ▸ Nat.zero_le _) (by simp [hmax])
    exact ⟨hreturns.trans htruth, hfault, hinputs⟩
  | literal _ hother | valueOf _ hother | procedure hother =>
    rw [hother] at hgenerator
    cases conj <;> cases hgenerator

/-- A run that comes to the code of `AND` or `OR` goes where the verdict on the inputs leads. -/
theorem Stage.Waits.heeds_choice (hwaits : s.Waits limit pins base found) (hproper : s.Proper)
    (hbuilt : (Node.call head inputs).Built h)
    (hgenerator : head.generator = if conj then .conjunction else .disjunction) {request : Request}
    (hrun : (lowerNode h (.call head inputs) request).run base = (.ok result, copy))
    (hwithin : copy.Within s.final) (hlimit : copy.types.size ≤ limit) (w : World) :
    ∃ seen rest answers verdict, inputs = seen ++ rest ∧
      Choice s.re h head.name conj w seen answers verdict ∧
      (∀ w', verdict = .decided conj w' → rest = []) ∧
      s.Heeds (s.here base w found) (fun p w' o => ∃ found', o = s.here copy w' found' ∧
        readReg found' result = .truth p ∧
          ∀ r : Reg, r.index < base.types.size → readReg found' r = readReg found r) verdict := by
  obtain ⟨-, hfault, hinputs⟩ := hbuilt.of_choice hgenerator
  rw [(lowerNode_choice conj hfault hgenerator request).1, emitChoice_eq] at hrun
  obtain ⟨r, d₁, hrun₁, hrun₂⟩ := Lower.exists_of_run_bind hrun
  have hopen := Lower.of_run_lift hrun₁
  cases inputs with
  | nil =>
    rw [List.isEmpty_nil, if_pos rfl] at hrun₂
    cases hrun₂
    obtain ⟨o, hleads, found₁, ho, -, -, -, hanswer, hkept⟩ :=
      hwaits.runs_openAnswer conj (w := w) (by rw [hopen]; exact hwithin)
    rw [hopen] at ho hanswer
    exact ⟨[], [], [], .decided conj w, rfl, .exhausted, fun _ _ => rfl, o, hleads, found₁, ho,
      hanswer, hkept⟩
  | cons input inputs =>
    rw [List.isEmpty_cons, if_neg Bool.false_ne_true] at hrun₂
    obtain ⟨exit, d₂, hlabel, hrun₃⟩ := Lower.exists_of_run_bind hrun₂
    obtain ⟨_, d₃, hchoices, hrun₄⟩ := Lower.exists_of_run_bind hrun₃
    obtain ⟨_, d₄, hclose, hpure⟩ := Lower.exists_of_run_bind hrun₄
    cases hpure
    obtain rfl : (Emit.freshLabel d₁).2 = d₂ := congrArg Prod.snd hlabel
    obtain rfl : (Emit.endBlock (.jump exit) exit d₃).2 = copy := congrArg Prod.snd hclose
    have hlowers : ∀ input' ∈ input :: inputs, input'.Lowers h :=
      fun input' hinput => (hinputs input' hinput).lowers
    have hbelow₃ : d₃.Below (Emit.endBlock (.jump exit) exit d₃).2 := .of_emit _
    have hbelow₂ := grows_lowerChoices hlowers conj result exit _ _ _ hchoices
    have hbelow₁ : d₁.Below (Emit.freshLabel d₁).2 := .of_emit _
    have hwithin₁ : d₁.Within s.final := hbelow₁ _ (hbelow₂ _ (hbelow₃ _ hwithin))
    obtain ⟨o, hleads, found₁, ho, hwaits₁, hnew, hlt, hanswer, hkept⟩ :=
      hwaits.runs_openAnswer conj (w := w) (by rw [hopen]; exact hwithin₁)
    rw [hopen] at ho hwaits₁ hnew hlt hanswer
    obtain ⟨seen, rest, answers, verdict, heq, hchoice, hend, hheeds⟩ :=
      Stage.Waits.heeds_choices (d := (Emit.freshLabel d₁).2) hproper hinputs
        (hwaits₁.grow List.prefix_rfl) hlt hanswer hchoices (hbelow₃ _ hwithin) hlimit w
    refine ⟨seen, rest, answers, verdict, heq, hchoice, hend, hheeds.of_leads (ho ▸ hleads) ?_⟩
    rintro p w' o' - ⟨found₂, ho', hread, hother⟩
    -- both ways lead to the exit
    have hexit : s.Leads o' (s.at_ exit w' found₂) := by
      rcases ho' with rfl | rfl
      · have hblock := hwithin.blocks _ (Array.mem_push.mpr (.inr rfl))
        exact Stage.leads_exitTo hblock
      · exact .refl
    refine ⟨_, hexit, found₂, rfl, hread, fun r hr => ?_⟩
    rw [hother r (Nat.lt_of_lt_of_le (Nat.lt_of_lt_of_le hr hnew) hlt.le) (by omega), hkept r hr]

/-- **`AND` and `OR`.** Inputs are evaluated and judged from left to right, each in the state that
the one before left, until one of them is decisive (false for `AND`, true for `OR`) or gives no
answer; `Choice` tells what comes of those inputs, and the rest plays no part. If all that were
evaluated have given an answer, the result is the conjunction or disjunction of the answers, and
unless the last was decisive there is no rest. A run that comes to the code goes on with the result
in a register, or it has returned the error or token an input came to, or, where an input has no
end, it never returns. Only where `ERRACT` has another input asked for is nothing said. -/
theorem Stage.Waits.exists_choice (hwaits : s.Waits limit pins base found) (hproper : s.Proper)
    (hbuilt : (Node.call head inputs).Built h)
    (hgenerator : head.generator = if conj then .conjunction else .disjunction) {request : Request}
    (hrun : (lowerNode h (.call head inputs) request).run base = (.ok result, copy))
    (hwithin : copy.Within s.final) (hlimit : copy.types.size ≤ limit) (w : World) :
    ∃ seen rest answers verdict, inputs = seen ++ rest ∧
      Choice s.re h head.name conj w seen answers verdict ∧
      (∀ p w', verdict = .decided p w' → answers.length = seen.length ∧
        p = (if conj then answers.all id else answers.any id) ∧ (p = conj → rest = [])) ∧
      s.Heeds (s.here base w found) (fun p w' o => ∃ found', o = s.here copy w' found' ∧
        readReg found' result = .truth p ∧
          ∀ r : Reg, r.index < base.types.size → readReg found' r = readReg found r) verdict := by
  obtain ⟨seen, rest, answers, verdict, hinputs, hchoice, hend, hheeds⟩ :=
    hwaits.heeds_choice hproper hbuilt hgenerator hrun hwithin hlimit w
  refine ⟨seen, rest, answers, verdict, hinputs, hchoice, ?_, hheeds⟩
  intro p w' hdecided
  subst hdecided
  refine ⟨hchoice.length_eq, hchoice.decided_eq, ?_⟩
  intro hp
  exact hend w' (by rw [hp])

end

namespace Shortcut

/-- The words `or`, `true` and `x`. -/
def heap : Heap where
  objects := #[.nothing, .word (.text "or"), .word (.text "true"), .word (.text "x")]

/-- The input `"true`. -/
def yes : Node :=
  .call ⟨⟨4⟩, 1, ⟨2⟩, .literal, .datum⟩ [.datum ⟨2⟩]

/-- The input `:x`, which has no value. -/
def unset : Node :=
  .call ⟨⟨5⟩, 2, ⟨3⟩, .valueOf, .datum⟩ [.datum ⟨3⟩]

/-- The expression `(or "true :x)`. -/
def head : NodeHead :=
  ⟨⟨6⟩, 3, ⟨1⟩, .disjunction, .truth⟩

theorem built_or : (Node.call head [yes, unset]).Built heap := by
  decide +kernel

/-- The input `"true` is true. -/
theorem eq_of_judged {re : Reenter} {w : World} {verdict : Verdict}
    (hjudged : yes.Judged re heap head.name w verdict) : verdict = .decided true w := by
  have hdone : ∀ {held : Pins} (a : Alone (lowerNode heap yes .datumOrTruth) re held),
      ∃ regs, a.stage.Leads (a.start w) (a.stage.here a.draft w regs) ∧
        readReg regs a.reg = .truth true := by
    intro held a
    have hcode : lowerNode heap yes .datumOrTruth = liftM (Emit.truth true) := lowerNode_literal rfl _ _
    have hrun : Emit.truth true {} = (a.reg, a.draft) :=
      Lower.of_run_lift (by rw [← hcode]; exact a.run)
    have hsize : (initialRegisters a.stage.final.types).size = a.stage.final.types.size :=
      Array.size_map
    obtain ⟨o, hleads, regs, ho, hread⟩ := Stage.runs_truth (s := a.stage) (d := {}) (w := w)
      (Q := fun r d' o => ∃ regs, o = a.stage.here d' w regs ∧ readReg regs r = .truth true) hsize
      (fun _ _ regs _ hr => ⟨regs, rfl, hr.reads⟩) (by rw [hrun]; exact a.within)
    rw [hrun] at ho hread
    exact ⟨regs, ho ▸ hleads, hread⟩
  cases hjudged with
  | left hleaves =>
    obtain ⟨a, hleads⟩ := hleaves
    obtain ⟨regs, hend, -⟩ := hdone a
    exact absurd hleads ((a.done_once hend).1 _ _)
  | value hfinishes hreads =>
    obtain ⟨a, regs, hleads, hvalue⟩ := hfinishes
    obtain ⟨regs', hend, hread⟩ := hdone a
    obtain ⟨rfl, rfl⟩ := (a.done_once hend).2 _ _ hleads
    rw [← hvalue, hread] at hreads
    cases hreads
    rfl
  | stuck a hendless =>
    obtain ⟨regs, hend, -⟩ := hdone a
    exact absurd hend (hendless.2 _ _)

/-- `(or "true :x)` is true, although `:x` has no value. -/
theorem exists_choice_shortcut : ∃ (s : Stage) (copy : Draft) (found : Array Value) (result : Reg),
    (lowerNode heap (.call head [yes, unset]) .datum).run {} = (.ok result, copy) ∧
      s.Leads (s.here {} { heap := heap } (initialRegisters s.code.types))
        (s.here copy { heap := heap } found) ∧ readReg found result = .truth true := by
  obtain ⟨a⟩ := exists_alone (built_or.lowers .datum {}) .idle []
  obtain ⟨seen, rest, answers, verdict, hinputs, hchoice, hend, hheeds⟩ :=
    (a.stage.waits_initial a.draft.types.size).exists_choice (a.proper Reenter.steady_idle)
      built_or (show head.generator = if false then .conjunction else .disjunction from rfl) a.run
      a.within (Nat.le_refl _) { heap := heap }
  refine ⟨a.stage, a.draft, ?_⟩
  cases hchoice with
  | exhausted =>
    obtain ⟨-, -, hrest⟩ := hend _ _ rfl
    rw [hrest rfl] at hinputs
    cases hinputs
  | decisive hinput =>
    cases hinputs
    cases eq_of_judged hinput
    obtain ⟨o, hleads, found, rfl, hread, -⟩ := hheeds
    exact ⟨found, a.reg, a.run, hleads, hread⟩
  | next hinput =>
    obtain ⟨rfl, -⟩ := List.cons.inj hinputs
    cases eq_of_judged hinput
  | undecided hinput hopen =>
    cases hinputs
    exact absurd (eq_of_judged hinput) (hopen _ _)

end Shortcut

end LogoEngine
