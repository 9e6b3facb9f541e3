import LogoEngine.Proofs.Lower.Exits
import LogoEngine.Proofs.Lower.Operands

/-!
# Tokens on their way through an expression

A token that comes out of an input deep inside an expression goes all the way up: every call on the
way returns it, whether the call writes, computes, runs a list, leaves the procedure or is a call of
a procedure itself. None of these calls is made. What is evaluated meanwhile are the inputs to the
right of a token that came as a value, on the level where it came up, and nothing above that level.

One input keeps its token: that of `.MAYBEOUTPUT` is asked for whatever it has, so it may come up by
leaving, but a token that is its value is not looked at.

Main statements: `Stage.Waits.handsOn`, what tokens among the inputs of one node do, and
`TokenAmong.leads`, the way up from any depth.
-/

namespace LogoEngine

/-- The inputs that a node evaluates, each with what is asked of it. The way out with the call of a
procedure as its input is a tail call, so what is evaluated are the inputs of that call. `AND` and
`OR` have none here, since they look at each input before the next. -/
def Node.operands : Node → List (Node × Request)
  | .datum _ => []
  | .call head inputs =>
    match head.generator.exitRequest?, inputs with
    | some asked, .call callee args :: _ =>
      if callee.generator = .execProcedure then callee.operands args
      else [(.call callee args, asked)]
    | _, _ => head.operands inputs

/-- **A token comes up among inputs** that are evaluated from left to right, or in one of them, at
any depth. The inputs in front of it have values. -/
inductive TokenAmong (re : Reenter) (h : Heap) (t : Ref) :
    Pins → World → List (Node × Request) → World → Prop
  /-- The code of an input leaves with the token. -/
  | left {pins pins₁ : Pins} {w w₁ w' : World} {before after : List (Node × Request)}
      {operand : Node} {asked : Request} {values : List Value}
      (hbefore : Evaluates re h pins w before values pins₁ w₁)
      (hleaves : (lowerNode h operand asked).Leaves re pins₁ w₁ t w') :
      TokenAmong re h t pins w (before ++ (operand, asked) :: after) w'
  /-- The token is the value of an input, and is looked at when the others have been evaluated. -/
  | value {pins pins' : Pins} {w w' : World} {before after : List (Node × Request)}
      {operand : Node} {asked : Request} {values later : List Value}
      (hall : Evaluates re h pins w (before ++ (operand, asked) :: after)
        (values ++ .datum t :: later) pins' w')
      (hasked : asked ≠ .datumOrNothing) (hreturns : operand.returns = .datumOrNothing)
      (hflow : w'.heap.isFlow t = true)
      (htaken : List.Forall₂ (fun p v => v.Taken w'.heap p.1.returns p.2) before values) :
      TokenAmong re h t pins w (before ++ (operand, asked) :: after) w'
  /-- The token comes up among the inputs of an input. -/
  | within {pins pins₁ : Pins} {w w₁ w' : World} {before after : List (Node × Request)}
      {head : NodeHead} {inputs : List Node} {asked : Request} {values : List Value}
      (hbefore : Evaluates re h pins w before values pins₁ w₁)
      (hfault : arityFault? h head inputs.length = none)
      (a : Alone (lowerNode h (.call head inputs) asked) re pins₁)
      (htoken : TokenAmong re h t a.stage.pins w₁ (Node.call head inputs).operands w') :
      TokenAmong re h t pins w (before ++ (.call head inputs, asked) :: after) w'

/-- **What tokens among inputs do** to a run at `o` that is about to evaluate them, where one of
them may be asked for whatever it has. -/
structure Stage.HandsOn (s : Stage) (h : Heap) (pins : Pins) (w : World)
    (operands : List (Node × Request)) (o : Machine.Outcome) : Prop where
  left : ∀ {before operand asked after values pins₁ w₁ t w₂},
    operands = before ++ (operand, asked) :: after →
    Evaluates s.re h pins w before values pins₁ w₁ →
    (lowerNode h operand asked).Leaves s.re pins₁ w₁ t w₂ → s.Leads o (.returned t w₂)
  value : ∀ {before operand asked after values t later pins' w'},
    operands = before ++ (operand, asked) :: after →
    Evaluates s.re h pins w operands (values ++ .datum t :: later) pins' w' →
    asked ≠ .datumOrNothing → operand.returns = .datumOrNothing → w'.heap.isFlow t = true →
    List.Forall₂ (fun p v => v.Taken w'.heap p.1.returns p.2) before values →
    ∃ h', w'.heap.Grows h' ∧ s.Leads o (.returned t { w' with heap := h' })

section

variable {s : Stage} {h : Heap} {limit : Nat} {pins : Pins} {w : World} {base copy : Draft}
  {found : Array Value} {head callee : NodeHead} {inputs args rest : List Node}
  {operands : List (Node × Request)} {request asked : Request} {r : Reg} {o : Machine.Outcome}

namespace Stage.HandsOn

theorem of_returnsTokens (hreturns : s.ReturnsTokens h pins w operands o) :
    s.HandsOn h pins w operands o :=
  ⟨hreturns.left, fun hsplit hall _ => hreturns.value hsplit hall⟩

/-- Without inputs there is no token. -/
theorem nil : s.HandsOn h pins w [] o := by
  constructor <;> intros <;> simp_all

/-- What happens before the inputs are evaluated is none of their business. -/
theorem of_leads {o' : Machine.Outcome} (hhands : s.HandsOn h pins w operands o')
    (hleads : s.Leads o o') : s.HandsOn h pins w operands o := by
  constructor
  · intro before operand asked after values pins₁ w₁ t w₂ hsplit hbefore hleaves
    exact hleads.trans (hhands.left hsplit hbefore hleaves)
  · intro before operand asked after values t later pins' w' hsplit hall hasked hreturns hflow htaken
    obtain ⟨h', hgrows, hreturned⟩ := hhands.value hsplit hall hasked hreturns hflow htaken
    exact ⟨h', hgrows, hleads.trans hreturned⟩

end Stage.HandsOn

/-! ### One node -/

/-- The inputs of the call of a procedure are built. -/
theorem Node.Built.of_procedure (hbuilt : (Node.call callee args).Built h)
    (hcallee : callee.generator = .execProcedure) : ∀ input ∈ args, input.Built h := by
  cases hbuilt with
  | primitive _ _ _ _ _ _ hinputs | procedure _ _ hinputs => exact hinputs
  | literal _ hother | valueOf _ hother => cases hcallee.symm.trans hother

/-- The inputs that a built node evaluates are built. -/
theorem Node.Built.of_mem_operands {node : Node} (hbuilt : node.Built h) {p : Node × Request}
    (hp : p ∈ node.operands) : p.1.Built h := by
  cases hbuilt with
  | primitive _ _ _ _ _ _ hinputs =>
    rw [Node.operands.eq_def] at hp
    dsimp only at hp
    split at hp
    · have hinput := hinputs _ List.mem_cons_self
      split at hp
      · next hcallee => exact hinput.of_procedure hcallee _ (List.of_mem_zip hp).1
      · obtain rfl := List.mem_singleton.mp hp
        exact hinput
    · exact hinputs _ (List.of_mem_zip hp).1
  | literal _ hgenerator | valueOf _ hgenerator =>
    -- what a literal stands for is never evaluated
    simp [Node.operands, NodeHead.operands, hgenerator, Generator.exitRequest?,
      Generator.requests] at hp
  | procedure hgenerator _ hinputs =>
    simp only [Node.operands, hgenerator, Generator.exitRequest?] at hp
    exact hinputs _ (List.of_mem_zip hp).1

private theorem eq_of_singleton {α : Type} {x y : α} {before after : List α}
    (h : [x] = before ++ y :: after) : before = [] ∧ x = y ∧ after = [] := by
  cases before with
  | nil => simpa using h
  | cons z before => simp at h

/-- A constant is loaded before the input of a way out is evaluated. -/
theorem Stage.Waits.leads_const (hwaits : s.Waits limit pins base found) (hproper : s.Proper)
    (c : Ref) (hwithin : (Emit.const c base).2.Within s.final) (w : World) :
    ∃ found', s.Leads (s.here base w found) (s.here (Emit.const c base).2 w found') ∧
      s.Waits limit pins (Emit.const c base).2 found' := by
  obtain ⟨o, hleads, found', rfl, hwaits'⟩ := hwaits.runs_const hproper (w := w) (c := c)
    (Q := fun _ d o => ∃ found', o = s.here d w found' ∧ s.Waits limit pins d found')
    (fun _ _ found' hwaits' _ => ⟨found', rfl, hwaits'⟩) hwithin
  exact ⟨found', hleads, hwaits'⟩

/-- A tail call: its inputs, and then the token. -/
theorem exists_lowerExit_tailCall (h : Heap) (head : NodeHead) (asked : Request) (args rest : List Node)
    (hcallee : callee.generator = .execProcedure) :
    ∃ tail : Reg → List Reg → Lower Reg, (∀ self rs, Lower.Grows (tail self rs)) ∧
      lowerExit h head asked (.call callee args :: rest) = (do
        let self ← Emit.const head.ref
        let rs ← lowerArguments h callee args
        tail self rs) := by
  refine ⟨fun self rs => do
    let target ← Emit.const callee.ref
    Emit.leaveWith head.ref .continuationToken (self :: target :: rs), fun _ _ => ?_, ?_⟩
  · exact (Lower.Grows.lift _).bind fun _ => .lift _
  · rw [lowerExit]
    simp only [if_pos hcallee, lowerArguments, bind_assoc]
    rw [hcallee]
    rfl

/-- Any other way out with an input: the value of the input, cast, and then the token. -/
theorem exists_lowerExit_value (h : Heap) (head : NodeHead) (asked : Request) (args rest : List Node)
    (hcallee : callee.generator ≠ .execProcedure) :
    ∃ tail : Reg → Reg → Lower Reg, (∀ self value, Lower.Grows (tail self value)) ∧
      lowerExit h head asked (.call callee args :: rest) = (do
        let self ← Emit.const head.ref
        let raw ← lowerNode h (.call callee args) asked
        let value ← Emit.cast raw head.name callee.returns asked
        tail self value) := by
  refine ⟨fun self value => do
    let value ← if asked = .nothing then Emit.nothing else pure value
    Emit.leaveWith head.ref .returnToken [self, value], fun self value => ?_, ?_⟩
  · dsimp only
    split
    · exact (Lower.Grows.lift _).bind fun _ => .lift _
    · exact .bind .pure fun _ => .lift _
  · rw [lowerExit]
    simp only [if_neg hcallee]

/-- The inputs of a tail call. -/
theorem Stage.Waits.handsOn_tailCall (hwaits : s.Waits limit pins base found) (hproper : s.Proper)
    (hinput : (Node.call callee args).Built h) (hcallee : callee.generator = .execProcedure)
    (hrun : (lowerExit h head asked (.call callee args :: rest)).run base = (.ok r, copy))
    (hwithin : copy.Within s.final) (hlimit : copy.types.size ≤ limit) (w : World) :
    s.HandsOn h pins w (callee.operands args) (s.here base w found) := by
  obtain ⟨tail, htail, heq⟩ := exists_lowerExit_tailCall h head asked args rest hcallee
  rw [heq] at hrun
  obtain ⟨self, d₁, hconst, hrun₁⟩ := Lower.exists_of_run_bind hrun
  obtain ⟨rs, d₂, hinputs, hrun₂⟩ := Lower.exists_of_run_bind hrun₁
  obtain rfl : (Emit.const head.ref base).2 = d₁ := congrArg Prod.snd hconst
  have hargs := hinput.of_procedure hcallee
  have hlowers : ∀ arg ∈ args, arg.Lowers h := fun arg harg => (hargs arg harg).lowers
  have hbelow₁ := (grows_lowerInputs hlowers _).bind (fun _ => .lift _) _ _ _ hinputs
  have hbelow₂ := htail self rs _ _ _ hrun₂
  obtain ⟨found₁, hleads, hwaits₁⟩ :=
    hwaits.leads_const hproper head.ref (hbelow₁ _ (hbelow₂ _ hwithin)) w
  have hreturns := hwaits₁.returnsTokens_of_arguments hproper hargs hinputs (hbelow₂ _ hwithin)
    (hbelow₂.types_size_le.trans hlimit) w
  exact .of_leads (.of_returnsTokens hreturns) hleads

/-- The input of a way out whose value is handed over. -/
theorem Stage.Waits.handsOn_value (hwaits : s.Waits limit pins base found) (hproper : s.Proper)
    (hinput : (Node.call callee args).Built h) (hcallee : callee.generator ≠ .execProcedure)
    (hrun : (lowerExit h head asked (.call callee args :: rest)).run base = (.ok r, copy))
    (hwithin : copy.Within s.final) (hlimit : copy.types.size ≤ limit) (w : World) :
    s.HandsOn h pins w [(.call callee args, asked)] (s.here base w found) := by
  obtain ⟨tail, htail, heq⟩ := exists_lowerExit_value h head asked args rest hcallee
  rw [heq] at hrun
  obtain ⟨self, d₁, hconst, hrun₁⟩ := Lower.exists_of_run_bind hrun
  obtain ⟨raw, d₂, hraw, hrun₂⟩ := Lower.exists_of_run_bind hrun₁
  obtain ⟨value, d₃, hcast, hrun₃⟩ := Lower.exists_of_run_bind hrun₂
  obtain rfl : (Emit.const head.ref base).2 = d₁ := congrArg Prod.snd hconst
  have hcode := Lower.of_run_lift hcast
  have hwithin₃ := htail self value _ _ _ hrun₃ _ hwithin
  have hbelow₂ : d₂.Below d₃ := Lower.Grows.lift _ _ _ _ hcast
  have hbelow₁ := hinput.lowers.grows _ _ _ _ hraw
  have hle₂ : d₂.types.size ≤ limit :=
    (hbelow₂.trans (htail self value _ _ _ hrun₃)).types_size_le.trans hlimit
  obtain ⟨found₁, hleads, hwaits₁⟩ :=
    hwaits.leads_const hproper head.ref (hbelow₁ _ (hbelow₂ _ hwithin₃)) w
  have hmoves := hinput.relocates (Emit.const head.ref base).2 asked
  refine .of_leads ⟨?_, ?_⟩ hleads
  · intro before operand asked' after values pins₁ w₁ t w₂ hsplit hbefore hleaves
    obtain ⟨rfl, heq, rfl⟩ := eq_of_singleton hsplit
    cases heq
    cases hbefore
    obtain ⟨a, hreturns⟩ := hleaves
    exact a.leads_returned hwaits₁ hproper hmoves (hbelow₂ _ hwithin₃) hle₂ hraw hreturns
  · intro before operand asked' after values t later pins' w' hsplit hall hasked hreturns hflow htaken
    obtain ⟨rfl, heq, rfl⟩ := eq_of_singleton hsplit
    cases heq
    cases htaken
    generalize hvalues : [] ++ Value.datum t :: later = values at hall
    cases hall with
    | @cons _ _ _ w₁ _ _ _ _ _ regs a hdone hrest =>
      obtain ⟨hvalue, -⟩ := List.cons.inj hvalues
      cases hrest
      obtain ⟨found₂, hleads₂, hwaits₂, hread, -⟩ :=
        a.leads_copy hwaits₁ hproper hmoves (hbelow₂ _ hwithin₃) hle₂ hraw hdone
      have hr := hinput.carries a hdone hraw hread
      rw [← hvalue] at hr
      -- the cast of the value returns the token
      have hcast' : s.Runs (Emit.cast raw head.name callee.returns asked) d₂ (s.here d₂ w' found₂)
          fun _ _ o => o = .returned t w' := by
        rw [show callee.returns = .datumOrNothing from hreturns]
        exact Stage.runs_cast_token hwaits₂.size hflow hasked hr
      obtain ⟨_, hleads₃, rfl⟩ := hcast' (by rw [hcode]; exact hwithin₃)
      exact ⟨w'.heap, .refl _, hleads₂.trans hleads₃⟩

/-- **Tokens among the inputs of a node** of whatever kind are handed on by the node. -/
theorem Stage.Waits.handsOn (hwaits : s.Waits limit pins base found) (hproper : s.Proper)
    (hbuilt : (Node.call head inputs).Built h) (hfault : arityFault? h head inputs.length = none)
    (hrun : (lowerNode h (.call head inputs) request).run base = (.ok r, copy))
    (hwithin : copy.Within s.final) (hlimit : copy.types.size ≤ limit) (w : World) :
    s.HandsOn h pins w (Node.call head inputs).operands (s.here base w found) := by
  rw [Node.operands.eq_def]
  dsimp only
  cases hspecial : head.generator.isSpecial with
  | false =>
    have hnone : head.generator.exitRequest? = none := by
      cases hg : head.generator <;> rw [hg] at hspecial <;> first | rfl | cases hspecial
    rw [hnone]
    obtain ⟨hinputs, rs, d, hrun', hbelow⟩ := hbuilt.exists_arguments hspecial hfault hrun
    exact .of_returnsTokens (hwaits.returnsTokens_of_arguments hproper hinputs hrun'
      (hbelow _ hwithin) (hbelow.types_size_le.trans hlimit) w)
  | true =>
    have hempty : head.operands inputs = [] := by
      rw [NodeHead.operands, List.zip_eq_nil_iff]
      right
      cases hg : head.generator <;> rw [hg] at hspecial <;> first | rfl | cases hspecial
    rw [hempty]
    split
    · next asked callee args rest hasked =>
      rw [(lowerNode_exit hfault hasked request).1] at hrun
      have hinput : (Node.call callee args).Built h := by
        cases hbuilt with
        | primitive _ _ _ _ _ _ hinputs | procedure _ _ hinputs => exact hinputs _ List.mem_cons_self
        | literal _ hg => rw [hg] at hasked; cases hasked
      split
      · next hcallee => exact hwaits.handsOn_tailCall hproper hinput hcallee hrun hwithin hlimit w
      · next hcallee => exact hwaits.handsOn_value hproper hinput hcallee hrun hwithin hlimit w
    · exact .nil

/-- **A token goes all the way up** from where it came, and nothing is done on the way. All that may
be new are the words that native values in front of it were made. -/
theorem TokenAmong.leads {re : Reenter} {t : Ref} {w' : World}
    (htoken : TokenAmong re h t pins w operands w') (hsteady : re.Steady)
    (hbuilt : ∀ p ∈ operands, p.1.Built h) (hre : s.re = re)
    (hhands : s.HandsOn h pins w operands o) :
    ∃ h', w'.heap.Grows h' ∧ s.Leads o (.returned t { w' with heap := h' }) := by
  induction htoken generalizing s o with
  | @left _ _ _ _ w' _ _ _ _ _ hbefore hleaves =>
    subst hre
    exact ⟨w'.heap, .refl _, hhands.left rfl hbefore hleaves⟩
  | value hall hasked hreturns hflow htaken =>
    subst hre
    exact hhands.value rfl hall hasked hreturns hflow htaken
  | @within _ _ _ w₁ w' _ _ head inputs asked _ hbefore hfault a htoken ih =>
    -- the code of the input, run alone, leaves with what comes up in it
    have hinput : (Node.call head inputs).Built h :=
      hbuilt _ (List.mem_append_right _ List.mem_cons_self)
    have hinner := (a.stage.waits_initial a.draft.types.size).handsOn (a.proper hsteady) hinput
      hfault a.run a.within (Nat.le_refl _) w₁
    obtain ⟨h', hgrows, hleads⟩ := ih (fun p hp => hinput.of_mem_operands hp) a.re_eq hinner
    rw [a.stage.types] at hleads
    subst hre
    exact ⟨h', hgrows, hhands.left rfl hbefore ⟨a, hleads⟩⟩

/-! ### Inputs that get a token from code they have run -/

/-- Code that is emitted the same is run alone the same. -/
def Alone.ofRun {m m' : Lower Reg} {re : Reenter} (a : Alone m re pins) (hrun : m'.run {} = m.run {}) :
    Alone m' re pins :=
  { a with run := hrun.trans a.run }

/-- Only literals look at what is asked of them. -/
theorem lowerNode_eq_of_ne_literal (hgenerator : head.generator ≠ .literal) (request request' : Request) :
    lowerNode h (.call head inputs) request = lowerNode h (.call head inputs) request' := by
  rw [lowerNode.eq_def, lowerNode.eq_def]
  dsimp only
  split
  · rfl
  · split <;> first | rfl | exact absurd ‹_› hgenerator

/-- The last input of a call gets a token from a list or procedure that it has run, and the inputs in
front of it are what the call asks for. -/
theorem Node.Gets.exists_tokenAmong {re : Reenter} {t : Ref} {w₁ w₂ : World}
    {pins₁ : Pins} {before : List (Node × Request)} {values : List Value}
    (hgets : Node.Gets re h pins₁ w₁ (.call head inputs) t w₂)
    (hbuilt : (Node.call head inputs).Built h) (hsteady : re.Steady)
    (hruns : head.generator.runsCode = true) (hreturns : head.returns = .datumOrNothing)
    (hasked : asked ≠ .datumOrNothing) (hflow : w₂.heap.isFlow t = true)
    (herror : head.generator = .catching → (w₂.heap.get t).error? = none)
    (hbefore : Evaluates re h pins w before values pins₁ w₁)
    (htaken : List.Forall₂ (fun p v => v.Taken w₂.heap p.1.returns p.2) before values) :
    ∃ w', w₂.Restores w' ∧
      TokenAmong re h t pins w (before ++ [(.call head inputs, asked)]) w' := by
  obtain ⟨w', hrestores, hhands⟩ := hgets.hands hbuilt hruns hflow herror
  refine ⟨w', hrestores, ?_⟩
  -- the code of the input is that of a statement
  have hliteral : head.generator ≠ .literal := by
    intro hg
    rw [hg] at hruns
    cases hruns
  have hrun : (lowerNode h (.call head inputs) asked).run {} =
      (lowerStatement h (.call head inputs)).run {} := by
    rw [lowerStatement_of_open hbuilt (.inr hreturns),
      lowerNode_eq_of_ne_literal hliteral asked .datumOrNothing]
  obtain ⟨a⟩ := exists_alone (lowerStatement_spec hbuilt {}) re pins₁
  rcases hhands with hleft | ⟨regs, hdone⟩
  · exact .left hbefore ⟨a.ofRun hrun, a.leads_of_left hsteady hbuilt hleft⟩
  · obtain ⟨regs', hleads, hvalue⟩ := a.exists_leads_of_done hsteady hbuilt hdone
    have hlast := Evaluates.cons (a.ofRun hrun) hleads .nil
    have hdatum : readReg regs' a.reg = .datum t := by
      have hfinishes : (lowerStatement h (.call head inputs)).Finishes re pins₁ w₁
          (readReg regs' a.reg) w' := ⟨a, regs', hleads, rfl⟩
      obtain ⟨hty, hvoid⟩ :=
        (hfinishes.hasType a.run ((lowerStatement_spec hbuilt {}).of_run a.run).2).ty_eq
      cases hreg : readReg regs' a.reg <;> rw [hreg] at hty hvoid hvalue
      case datum o => exact congrArg Value.datum hvalue
      case void => exact absurd rfl hvoid
      all_goals cases hty
    rw [show readReg regs' (a.ofRun hrun).reg = .datum t from hdatum] at hlast
    rw [← hrestores.heap_eq] at hflow htaken
    exact .value (hbefore.append hlast) hasked hreturns hflow htaken

end

end LogoEngine
