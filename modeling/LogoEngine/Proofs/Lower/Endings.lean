import LogoEngine.Proofs.Emit.WaysOut
import LogoEngine.Proofs.Lower.Settling

/-!
# How statements end

The code of a built node lets runs pass as emitted code does. So a statement that leaves breaks off,
with a token or with the reply to a pause, and a node that says it has no value has none when it is
done.

Main statements: `Node.Built.breaks` and `Node.Built.silent`.
-/

namespace LogoEngine

/-! ### Lowering -/

namespace Lower

variable {α β : Type}

/-- Code of a computation that succeeds grows the draft, and brings runs that return to where `J`
says. -/
structure Brings (m : Lower α) (J : Stage → World → α → Draft → Machine.Outcome → Prop) : Prop where
  grows : Grows m
  comes : ∀ ⦃d a d'⦄, m.run d = (.ok a, d') →
    ∀ ⦃s : Stage⦄ [s.re.Changes] ⦃w₀ w early r n o⦄, s.Regular → s.Inner early d' →
      s.Arrives w₀ d o → s.Comes r w early n o fun _ o' => J s w₀ a d' o'

/-- Code that lets runs pass. -/
abbrev Passes (m : Lower α) : Prop :=
  m.Brings fun s w₀ _ d o => s.Arrives w₀ d o

/-- Code that lets runs pass, and leaves what `P` says. -/
abbrev Yields (P : World → Ref → Prop) (m : Lower Reg) : Prop :=
  m.Brings fun s w₀ a d o => s.Holds P w₀ d a o

namespace Brings

variable {m : Lower α} {f : α → Lower β} {K : Stage → World → α → Draft → Machine.Outcome → Prop}
  {J : Stage → World → β → Draft → Machine.Outcome → Prop}

theorem bind (hm : m.Passes) (hf : ∀ a, (f a).Brings J) : (m >>= f).Brings J where
  grows := hm.grows.bind fun a => (hf a).grows
  comes d b d' hrun s _ w₀ w early r n o hs hw harrives := by
    obtain ⟨a, d₁, hrun₁, hrun₂⟩ := exists_of_run_bind hrun
    have hw₁ := hw.of_below ((hf a).grows d₁ b d' hrun₂)
    refine (hm.comes hrun₁ hs hw₁ harrives).trans fun n' o' _ harrives' => ?_
    exact (hf a).comes hrun₂ hs hw harrives'

theorem throw (e : CompileError) : Brings (throw e : Lower β) J where
  grows _ _ _ hrun := by cases hrun
  comes _ _ _ hrun := by cases hrun

theorem pure {a : α} (h : ∀ {s : Stage} {w₀ d o}, s.Arrives w₀ d o → K s w₀ a d o) :
    Brings (pure a : Lower α) K where
  grows := Grows.pure
  comes d _ _ hrun s _ w₀ w early r n o _ _ harrives := by
    cases hrun
    exact .refl (h harrives)

/-- Code that cannot fail. -/
theorem lift {m : Emit α} [Emit.Grows m]
    (h : ∀ {s : Stage} [s.re.Changes] {w₀ w : World} {early : Block → Prop} {r : Ref} {n : Nat},
      s.Regular → s.Through r w early w₀ n m fun a d' _ o' => K s w₀ a d' o') : Brings (liftM m : Lower α) K where
  grows := Grows.lift m
  comes d _ _ hrun s _ w₀ w early r n o hs hw harrives := by
    cases hrun
    exact h hs (Nat.le_refl n) harrives hw

end Brings

theorem Passes.lift (m : Emit α) [Emit.Grows m] [hm : Emit.Passes m] :
    Passes (liftM m : Lower α) :=
  Brings.lift fun hs => hm.must hs

theorem Yields.lift {P : World → Ref → Prop} (m : Emit Reg) [Emit.Grows m] [hm : Emit.Yields P m] :
    Yields P (liftM m) :=
  Brings.lift fun hs => hm.must hs

end Lower

section

variable {h : Heap} {head : NodeHead} {inputs : List Node}

/-! ### Inputs and generators -/

/-- Nodes whose code lets runs pass. -/
def Node.Passes (h : Heap) (node : Node) : Prop :=
  ∀ request, (lowerNode h node request).Passes

theorem lowerInputs_passes (hinputs : ∀ input ∈ inputs, input.Passes h) (requests : List Request) :
    (lowerInputs h inputs requests).Passes := by
  induction inputs generalizing requests with
  | nil =>
    rw [lowerInputs.eq_def]
    exact .pure fun harrives => harrives
  | cons input inputs ih =>
    cases requests with
    | nil =>
      rw [lowerInputs.eq_def]
      exact .pure fun harrives => harrives
    | cons request requests =>
      rw [List.forall_mem_cons] at hinputs
      rw [lowerInputs]
      exact .bind (hinputs.1 request) fun r => .bind (ih hinputs.2 requests) fun _ =>
        .pure fun harrives => harrives

instance (who : Ref) (rs : List Reg) (nodes : List Node) (requests : List Request) :
    Emit.Passes (castInputs who rs nodes requests) := by
  induction rs generalizing nodes requests with
  | nil => unfold castInputs; infer_instance
  | cons r rs ih =>
    cases nodes with
    | nil => unfold castInputs; infer_instance
    | cons node nodes =>
      cases requests with
      | nil => unfold castInputs; infer_instance
      | cons request requests => unfold castInputs; infer_instance

theorem emitNode_passes (rs : List Reg) : (emitNode h head rs).Passes := by
  obtain ⟨node, id, who, g, returns⟩ := head
  cases g
  all_goals
    first
    | exact .lift _
    | rcases rs with _ | ⟨a, _ | ⟨b, _ | ⟨c, rest⟩⟩⟩
      all_goals first | exact .lift _ | exact .throw _

/-! ### Choices and ways out -/

theorem lowerChoices_brings (hinputs : ∀ input ∈ inputs, input.Passes h) (conj : Bool)
    (result : Reg) (exit : Label) :
    (lowerChoices h head conj result exit inputs).Brings fun s w₀ _ d o =>
      s.Arrives w₀ d o ∨ s.ArrivesAt w₀ exit o := by
  induction inputs with
  | nil =>
    rw [lowerChoices]
    exact .pure .inl
  | cons operand rest ih =>
    rw [List.forall_mem_cons] at hinputs
    have hrest := ih hinputs.2
    rw [lowerChoices]
    refine .bind (hinputs.1 _) fun raw => .bind (Lower.Passes.lift _) fun value =>
      .bind (Lower.Passes.lift _) fun b => .bind (Lower.Passes.lift _) fun _ => ?_
    split
    · exact .pure .inl
    refine .bind (Lower.Passes.lift _) fun next => ?_
    refine ⟨(Lower.Grows.lift _).bind fun _ => hrest.grows, ?_⟩
    intro d _ d' hrun s _ w₀ w early r n o hs hw harrives
    obtain ⟨_, d₁, hrun₁, hrun₂⟩ := Lower.exists_of_run_bind hrun
    cases hrun₁
    have hw₁ := hw.of_below (hrest.grows _ _ _ hrun₂)
    obtain ⟨w₁, regs, hchanges, hsize, rfl⟩ := harrives
    -- one way leads to the next input and the other to the exit
    refine (Stage.must_endBlock (Q := fun _ d₁ _ o => s.Arrives w₀ d₁ o ∨ s.ArrivesAt w₀ exit o)
      (fun n' d₁ _ hopens _ => ?_) hw₁).trans fun n' o' _ hnext => ?_
    · have hat : ∀ l, s.ArrivesAt w₀ l (s.at_ l w₁ regs) :=
        fun l => ⟨w₁, regs, hchanges, hsize, rfl⟩
      cases conj
      all_goals
        simp only [Bool.false_eq_true, if_false, if_true, Stage.exitTo]
        split
        all_goals first | exact .inr (hat exit) | exact .inl (hopens.arrives.mpr (hat next))
    · rcases hnext with harrives | hexit
      · exact hrest.comes hrun₂ hs hw harrives
      · exact .refl (.inr hexit)

theorem emitChoice_passes (conj noInputs : Bool) {inputs : Reg → Label → Lower Unit}
    (hinputs : ∀ result exit, (inputs result exit).Brings fun s w₀ _ d o =>
      s.Arrives w₀ d o ∨ s.ArrivesAt w₀ exit o) :
    (emitChoice conj noInputs inputs).Passes := by
  refine .bind (Lower.Passes.lift _) fun result => .bind (Lower.Passes.lift _) fun _ =>
    .bind (Lower.Passes.lift _) fun _ => ?_
  split
  · exact .pure fun harrives => harrives
  refine .bind (Lower.Passes.lift _) fun exit => ?_
  refine ⟨(hinputs result exit).grows.bind fun _ => (Lower.Grows.lift _).bind fun _ => .pure, ?_⟩
  intro d _ d' hrun s _ w₀ w early r n o hs hw harrives
  obtain ⟨_, d₁, hrun₁, hrun₂⟩ := Lower.exists_of_run_bind hrun
  cases hrun₂
  have hw₁ : s.Inner early d₁ := hw.of_below (.of_emit (Emit.endBlock (.jump exit) exit))
  refine ((hinputs result exit).comes hrun₁ hs hw₁ harrives).trans fun n' o' _ hnext => ?_
  rcases hnext with ⟨w₁, regs, hchanges, hsize, rfl⟩ | hexit
  · refine Stage.must_endBlock (Q := fun _ d₂ _ o => s.Arrives w₀ d₂ o)
      (fun n'' d₂ _ hopens _ => hopens.arrives.mpr ?_) hw
    exact ⟨w₁, regs, hchanges, hsize, rfl⟩
  · exact Stage.Must.opens (m := Emit.endBlock (.jump exit) exit)
      (Q := fun _ d₂ _ o => s.Arrives w₀ d₂ o)
      (fun _ d₂ hopens => hopens.arrives.mpr hexit) hw

section

variable {J : Stage → World → Reg → Draft → Machine.Outcome → Prop}

/-- Ways out let nothing pass. -/
theorem leaveWith_brings (node : Ref) (helper : Helper) [helper.MakesToken] (rs : List Reg) :
    (liftM (Emit.leaveWith node helper rs) : Lower Reg).Brings J := by
  refine .lift fun hs => ?_
  unfold Emit.leaveWith
  exact Stage.through_returnNow hs

theorem lowerExit_brings (request : Request) (hinputs : ∀ input ∈ inputs, input.Passes h)
    (hargs : ∀ callee args, .call callee args ∈ inputs → callee.generator = .execProcedure →
      ∀ arg ∈ args, arg.Passes h) :
    (lowerExit h head request inputs).Brings J := by
  cases inputs with
  | nil =>
    rw [lowerExit]
    exact .bind (Lower.Passes.lift _) fun _ => .bind (Lower.Passes.lift _) fun _ =>
      leaveWith_brings _ _ _
  | cons input inputs =>
    cases input with
    | datum r =>
      rw [lowerExit]
      exact .bind (Lower.Passes.lift _) fun _ => .throw _
    | call callee args =>
      rw [lowerExit]
      refine .bind (Lower.Passes.lift _) fun self => ?_
      split
      · next hcall =>
        have hargs := hargs callee args List.mem_cons_self hcall
        exact .bind (lowerInputs_passes hargs _) fun raw => .bind (Lower.Passes.lift _) fun rs =>
          .bind (Lower.Passes.lift _) fun target => leaveWith_brings _ _ _
      · refine .bind (hinputs _ List.mem_cons_self request) fun raw =>
          .bind (Lower.Passes.lift _) fun value => ?_
        split
        · exact .bind (Lower.Passes.lift _) fun _ => leaveWith_brings _ _ _
        · exact .bind (.pure fun harrives => harrives) fun _ => leaveWith_brings _ _ _

end

/-! ### All nodes -/

theorem arityFault?_makesToken {n : Nat} {helper : Helper}
    (hfault : arityFault? h head n = some helper) : helper.MakesToken := by
  unfold arityFault? at hfault
  repeat' split at hfault
  all_goals cases hfault
  all_goals infer_instance

/-- A wrong number of inputs is an error. -/
theorem lowerNode_brings_of_fault {J : Stage → World → Reg → Draft → Machine.Outcome → Prop}
    {helper : Helper} (hfault : arityFault? h head inputs.length = some helper)
    (request : Request) : (lowerNode h (.call head inputs) request).Brings J := by
  have hmakes := arityFault?_makesToken hfault
  have hrun : lowerNode h (.call head inputs) request = liftM (emitArityFault head helper) := by
    rw [lowerNode.eq_def]
    simp only [hfault]
  have : (emitArityFault head helper).Grows := by unfold emitArityFault; infer_instance
  rw [hrun]
  refine .lift fun hs => ?_
  unfold emitArityFault
  exact .bind hs fun name => Stage.through_returnNow hs

theorem lowerNode_passes_of_generic (hfault : arityFault? h head inputs.length = none)
    (hspecial : head.generator.isSpecial = false) (hinputs : ∀ input ∈ inputs, input.Passes h) :
    (Node.call head inputs).Passes h := by
  intro request
  rw [lowerNode_generic hfault hspecial]
  exact .bind (lowerInputs_passes hinputs _) fun raw => .bind (Lower.Passes.lift _) fun rs =>
    emitNode_passes rs

/-- Nodes whose code lets runs pass, also as a tail call. -/
def Node.PassesOut (h : Heap) (node : Node) : Prop :=
  node.Passes h ∧ ∀ callee args, node = .call callee args → callee.generator = .execProcedure →
    ∀ arg ∈ args, arg.Passes h

private theorem passes_primitive {row : Primitive} (hproper : row.Proper)
    (hgenerator : head.generator = row.generator)
    (hinputs : ∀ input ∈ inputs, input.PassesOut h) : (Node.call head inputs).Passes h := by
  have hpasses : ∀ input ∈ inputs, input.Passes h := fun input hi => (hinputs input hi).1
  cases hfault : arityFault? h head inputs.length with
  | some helper => exact lowerNode_brings_of_fault hfault
  | none =>
    by_cases hspecial : head.generator.isSpecial = true
    · intro request
      rcases Generator.isSpecial_cases hspecial with hg | hg | hg | hg | ⟨asked, hasked⟩
      · exact absurd (hgenerator ▸ hg) hproper.literal
      · exact absurd (hgenerator ▸ hg) hproper.valueOf
      · rw [(lowerNode_choice true hfault hg request).1]
        exact emitChoice_passes _ _ fun _ _ => lowerChoices_brings hpasses true _ _
      · rw [(lowerNode_choice false hfault hg request).1]
        exact emitChoice_passes _ _ fun _ _ => lowerChoices_brings hpasses false _ _
      · rw [(lowerNode_exit hfault hasked request).1]
        exact lowerExit_brings asked hpasses fun callee args hmem =>
          (hinputs _ hmem).2 callee args rfl
    · exact lowerNode_passes_of_generic hfault (by simpa using hspecial) hpasses

private theorem Node.Built.passesOut {node : Node} (hbuilt : node.Built h) : node.PassesOut h := by
  -- inputs come along, for a call in tail position has its inputs lowered by the node around it
  induction hbuilt with
  | @primitive head inputs name row _ hrow hgenerator _ _ ih =>
    have hproper := (Primitive.find?_eq_some hrow).1
    refine ⟨passes_primitive hproper hgenerator ih, fun callee args heq hcall => ?_⟩
    cases heq
    exact absurd (hgenerator ▸ hcall) hproper.procedure
  | @literal head value hgenerator _ =>
    refine ⟨fun request => ?_, fun callee args heq hcall => ?_⟩
    · rw [lowerNode_literal hgenerator]
      have : (emitLiteral h value.ref request).Grows := by
        unfold emitLiteral
        repeat' first | infer_instance | split
      have : (emitLiteral h value.ref request).Passes := by
        unfold emitLiteral
        repeat' first | infer_instance | split
      exact Lower.Passes.lift _
    · cases heq
      rw [hgenerator] at hcall
      cases hcall
  | @valueOf head subject hgenerator _ =>
    refine ⟨fun request => ?_, fun callee args heq hcall => ?_⟩
    · rw [lowerNode_valueOf hgenerator]
      exact Lower.Passes.lift _
    · cases heq
      rw [hgenerator] at hcall
      cases hcall
  | @procedure head inputs hgenerator _ _ ih =>
    have hpasses : ∀ input ∈ inputs, input.Passes h := fun input hi => (ih input hi).1
    refine ⟨lowerNode_passes_of_generic (by simp [arityFault?, hgenerator])
      (by simp [hgenerator, Generator.isSpecial]) hpasses, fun callee args heq _ => ?_⟩
    cases heq
    exact hpasses

theorem Node.Built.passes {node : Node} (hbuilt : node.Built h) : node.Passes h :=
  hbuilt.passesOut.1

/-! ### Nodes without a value -/

/-- Generators of commands, which have no value. -/
def Generator.isCommand : Generator → Bool
  | rerandom | forever | test | stop | output | maybeOutput | tag | goto | throwing | bye | make
  | makeLocal | printing | showing | typing | turtle _ | setPos => true
  | data op => op.changes
  | _ => false

private theorem Primitive.table_commands : ∀ row ∈ Primitive.table, row.returns = .nothing →
    row.generator.isCommand = true := by
  decide +kernel

theorem emitNode_silent (hcommand : head.generator.isCommand = true)
    (hspecial : head.generator.isSpecial = false) (rs : List Reg) :
    (emitNode h head rs).Yields (Emit.Silent head.ref) := by
  obtain ⟨node, id, who, g, returns⟩ := head
  cases g
  case data op =>
    have : (Helper.data op).Obeys := Helper.obeys_data hcommand
    exact .lift _
  case rerandom | tag | bye | makeLocal | printing | showing | typing | turtle => exact .lift _
  case forever | test | goto | throwing | setPos =>
    rcases rs with _ | ⟨a, rest⟩
    · exact .throw _
    · exact .lift _
  case make =>
    rcases rs with _ | ⟨a, _ | ⟨b, rest⟩⟩
    · exact .throw _
    · exact .throw _
    · exact .lift _
  case stop | output | maybeOutput => cases hspecial
  all_goals cases hcommand

theorem Node.Built.lowerNode_silent {node : Node} (hbuilt : node.Built h)
    (hreturns : node.returns = .nothing) (request : Request) :
    (lowerNode h node request).Yields (Emit.Silent node.ref) := by
  have hout := hbuilt.passesOut
  cases hbuilt with
  | @primitive head inputs name row hname hrow hgenerator hrow' hinputs =>
    rw [Node.returns, hrow'] at hreturns
    have hcommand := Primitive.table_commands row (Primitive.mem_of_find? hrow) hreturns
    rw [← hgenerator] at hcommand
    cases hfault : arityFault? h head inputs.length with
    | some helper => exact lowerNode_brings_of_fault hfault request
    | none =>
      by_cases hspecial : head.generator.isSpecial = true
      · rcases Generator.isSpecial_cases hspecial with hg | hg | hg | hg | ⟨asked, hasked⟩
        any_goals
          rw [hg] at hcommand
          cases hcommand
        rw [(lowerNode_exit hfault hasked request).1]
        exact lowerExit_brings asked (fun input hi => (hinputs input hi).passes)
          fun callee args hmem => (hinputs _ hmem).passesOut.2 callee args rfl
      · rw [lowerNode_generic hfault (by simpa using hspecial)]
        exact .bind (lowerInputs_passes (fun input hi => (hinputs input hi).passes) _) fun raw =>
          .bind (Lower.Passes.lift _) fun rs => emitNode_silent hcommand (by simpa using hspecial) rs
  | literal value hgenerator hdatum | valueOf value hgenerator hdatum =>
    rw [Node.returns, hdatum] at hreturns
    cases hreturns
  | procedure hgenerator hopen hinputs =>
    rw [Node.returns, hopen] at hreturns
    cases hreturns

end

/-! ### Statements -/

/-- Nodes are objects, and "no value" is what it is. -/
structure World.Holds (w : World) (nodes : List Node) : Prop where
  nodes : ∀ node ∈ nodes, ∃ head inputs, w.heap.get node.ref = .node head inputs
  nothing : w.heap.objects[Ref.nothing.index]? = some .nothing

theorem World.Holds.mono {w : World} {nodes nodes' : List Node} (hholds : w.Holds nodes)
    (hsub : nodes' ⊆ nodes) : w.Holds nodes' :=
  ⟨fun node hnode => hholds.nodes node (hsub hnode), hholds.nothing⟩

/-- Nodes and "no value" stay what they are. -/
theorem World.Holds.changes {w w' : World} {nodes : List Node} (hholds : w.Holds nodes)
    (hc : w.Changes w') : w'.Holds nodes := by
  have hextends := hc.heap_extends
  constructor
  · intro node hnode
    obtain ⟨head, inputs, hget⟩ := hholds.nodes node hnode
    have hlt : node.ref.index < w.heap.objects.size := by
      by_contra hge
      simp [Heap.get, Array.getD, hge] at hget
    have hbecomes := hextends.becomes node.ref hlt
    rw [hget] at hbecomes
    generalize w'.heap.get node.ref = o at hbecomes
    cases hbecomes
    exact ⟨head, inputs, rfl⟩
  · obtain ⟨hlt, hget⟩ := Array.getElem?_eq_some_iff.mp hholds.nothing
    have hbecomes := hextends.becomes Ref.nothing hlt
    have hlt' := hlt.trans_le hextends.size_le
    simp only [Heap.get, Array.getD, hlt, hlt', dif_pos, Array.getInternal_eq_getElem, hget] at hbecomes
    generalize hobject : w'.heap.objects[Ref.nothing.index] = o at hbecomes
    cases hbecomes
    exact Array.getElem?_eq_some_iff.mpr ⟨hlt', hobject⟩

/-- What stands for no value is neither a token nor data. -/
theorem World.Holds.mute {w : World} {node : Node} (hholds : w.Holds [node]) {v : Ref}
    (hsilent : Emit.Silent node.ref w v) : w.heap.isFlow v = false ∧ w.heap.isData v = false := by
  rcases hsilent with rfl | rfl
  · obtain ⟨head, inputs, hget⟩ := hholds.nodes node List.mem_cons_self
    rw [Heap.isFlow, Heap.isData, hget]
    exact (by decide : (Kind.node.tag &&& flowMask != 0) = false ∧
      (Kind.node.tag &&& dataMask != 0) = false)
  · obtain ⟨hlt, hget⟩ := Array.getElem?_eq_some_iff.mp hholds.nothing
    have hnothing : w.heap.get Ref.nothing = .nothing := by
      simp [Heap.get, Array.getD, hlt, hget]
    rw [Heap.isFlow, Heap.isData, hnothing]
    decide

section

variable {re : Reenter} {h : Heap} {node : Node} {pins : Pins} {w w' : World}

/-- Steps do nothing but changes. -/
theorem Machine.Reaches.changes [re.Changes] {code : Linked} {block : Int} {c c' : Config}
    (hreaches : Machine.Reaches re pins code block c c') : c.world.Changes c'.world := by
  induction hreaches with
  | refl => exact .refl
  | @tail c₁ c₂ _ hmove ih =>
    refine ih.trans ?_
    unfold Machine.Moves Machine.step at hmove
    split at hmove
    · split at hmove
      · next hrun =>
        cases hmove
        exact Run.Changes.changes hrun
      · cases hmove
    · -- the end of a block changes nothing
      have hleave : Machine.leave code c₁ = .running c₂ := Except.ok.inj hmove
      unfold Machine.leave at hleave
      split at hleave
      · cases hleave
      · split at hleave <;> cases hleave <;> exact .refl

theorem Node.Ends.changes [re.Changes] {v : Ref} {regs : Array Value}
    (hends : node.Ends re h pins w (.done v regs w')) : w.Changes w' := by
  obtain ⟨name, routine, code, -, -, c, hreaches, -, -, hstep⟩ := hends
  have hchanges := hreaches.changes
  unfold Machine.step at hstep
  split at hstep
  · split at hstep <;> cases hstep
  · have hleave : Machine.leave code c = .returned v w' := Except.ok.inj hstep
    unfold Machine.leave at hleave
    split at hleave
    · cases hleave
      exact hchanges
    · split at hleave <;> cases hleave <;> exact hchanges

theorem lowerStatement_passes (hbuilt : node.Built h) : (lowerStatement h node).Passes :=
  .bind (hbuilt.passes _) fun _ => Lower.Passes.lift _

/-- Nothing is cast where a value need not be left. -/
theorem lowerStatement_of_open (hbuilt : node.Built h)
    (hopen : node.returns = .nothing ∨ node.returns = .datumOrNothing) (d : Draft) :
    (lowerStatement h node).run d = (lowerNode h node .datumOrNothing).run d := by
  obtain ⟨raw, d₁, hrun, -, hraw, -⟩ := hbuilt.lowers .datumOrNothing d
  rw [hbuilt.rawTy_eq_datum hopen] at hraw
  have htype : Emit.typeOf raw d₁ = (.datum, d₁) := by
    simp only [Emit.typeOf, Array.getD_eq_getD_getElem?]
    rw [hraw]
    rfl
  have hcast : Emit.cast raw (h.displayName node.ref) node.returns .datumOrNothing d₁ =
      (raw, d₁) := by
    show (Emit.typeOf raw >>= _) d₁ = _
    simp only [bind, StateT.bind, htype]
    rcases hopen with hreturns | hreturns <;> rw [hreturns] <;> rfl
  refine (Lower.run_bind hrun).trans ?_
  rw [hrun]
  exact congrArg (fun p => (Except.ok p.1, p.2)) hcast

theorem lowerStatement_silent (hbuilt : node.Built h) (hreturns : node.returns = .nothing) :
    (lowerStatement h node).Yields (Emit.Silent node.ref) := by
  have hsilent := hbuilt.lowerNode_silent hreturns .datumOrNothing
  constructor
  · intro d a d' hrun
    rw [lowerStatement_of_open hbuilt (.inl hreturns)] at hrun
    exact hsilent.grows d a d' hrun
  · intro d a d' hrun
    rw [lowerStatement_of_open hbuilt (.inl hreturns)] at hrun
    exact hsilent.comes hrun

/-- Where the run of a statement on its own comes to: it breaks off, or it comes to the end of the
code. -/
theorem SoloStage.comes [re.Changes] {code : Linked} (t : SoloStage h node re pins code)
    {J : Stage → World → Reg → Draft → Machine.Outcome → Prop}
    (hbrings : (lowerStatement h node).Brings J) {r : Ref}
    (hleads : t.stage.Leads (t.stage.here {} w (initialRegisters code.types)) (.returned r w')) :
    t.stage.BreaksOff (· ∈ t.draft.blocks) (t.stage.here {} w (initialRegisters code.types)) r w' ∨
      ∃ o, t.stage.Leads (t.stage.here {} w (initialRegisters code.types)) o ∧
        J t.stage w t.reg t.draft o := by
  have hchanges : t.stage.re.Changes := by
    rw [t.re_eq]
    infer_instance
  have hregular : t.stage.Regular := by
    intro b hb value hexit
    rw [t.final_eq] at hb ⊢
    have hreturns := (t.solo.wellFormed "").returns b (Array.mem_toList_iff.mpr hb) value hexit
    exact (Routine.typeOf_eq_ok_iff _).mp hreturns
  have harrives : t.stage.Arrives w {} (t.stage.here {} w (initialRegisters code.types)) :=
    ⟨w, _, .refl, by rw [← t.stage.types, t.code_eq]; simp [initialRegisters], rfl⟩
  obtain ⟨n, hreturns⟩ := Stage.exists_returnsIn hleads
  rcases hbrings.comes t.solo.run hregular ⟨t.within, fun _ hb => hb⟩ harrives hreturns with
    hbreaks | ⟨_, _, o, hleads', _, hJ⟩
  · exact .inl hbreaks
  · exact .inr ⟨o, hleads', hJ⟩

/-- **A statement that leaves breaks off.** -/
theorem Node.Built.breaks [re.Changes] (hbuilt : node.Built h) {r : Ref}
    (hends : node.Ends re h pins w (.left r w')) : w'.Breaks r := by
  obtain ⟨code, t, hends⟩ := hends.exists_stage hbuilt
  obtain ⟨c, hleads, hstep, hposition⟩ := t.ends_left_iff.mp hends
  rcases t.comes (lowerStatement_passes hbuilt) (hleads.tail hstep) with
    ⟨hbreaks, -⟩ | ⟨_, hleads', w₁, regs, -, -, rfl⟩
  · exact hbreaks
  · -- a run that came to the end of the code returns from there
    have hlast := t.step_here w₁ regs
    rw [t.here_draft] at hleads' hlast
    have hsame := hleads.returns_once hleads' hstep hlast
    rw [hsame] at hposition
    exact absurd hposition (Nat.lt_irrefl _)

/-- **A node that says it has no value has none.** -/
theorem Node.Built.silent [re.Changes] (hbuilt : node.Built h) (hreturns : node.returns = .nothing)
    (hholds : w.Holds [node]) {v : Ref} {regs : Array Value}
    (hends : node.Ends re h pins w (.done v regs w')) :
    w'.heap.isFlow v = false ∧ w'.heap.isData v = false := by
  obtain ⟨code, t, hends⟩ := hends.exists_stage hbuilt
  obtain ⟨hleads, rfl⟩ := t.ends_done_iff.mp hends
  have hlast := t.step_here w' regs
  rcases t.comes (lowerStatement_silent hbuilt hreturns) (hleads.tail hlast) with
    ⟨-, c, hleads', hstep, b, hb, hplace⟩ | ⟨_, hleads', w₁, regs₁, hchanges, -, rfl, hsilent⟩
  · -- the last block is none of those the code has closed
    rw [t.here_draft] at hleads hlast
    have hsame := hleads.returns_once hleads' hlast hstep
    have hlt := t.place_lt b hb
    rw [← hplace, ← hsame] at hlt
    exact absurd hlt (Nat.lt_irrefl _)
  · have hlast' := t.step_here w₁ regs₁
    rw [t.here_draft] at hleads hlast hleads' hlast'
    cases hleads.returns_once hleads' hlast hlast'
    exact (hholds.changes hchanges).mute hsilent

end

end LogoEngine
