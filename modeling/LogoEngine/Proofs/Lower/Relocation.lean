import LogoEngine.Proofs.Emit.Relocation
import LogoEngine.Proofs.Lower.Nodes

/-!
# The code of a node in another place

Lowering a node depends on the draft as little as emitting does, so the code of a node in the middle
of a routine is the code of the node alone, moved.

Main statement: `Node.Built.relocates`.
-/

namespace LogoEngine

instance {α : Type} [Movable α] : Movable (Except CompileError α) where
  moved base
    | .ok a, .ok a' => Moved base a a'
    | .error e, .error e' => e = e'
    | _, _ => False

namespace Lower

variable {base : Draft} {α β : Type} [Movable α] [Movable β]

/-- Two ways to lower that keep drafts related, with results that are related. -/
def Moves (base : Draft) (m m' : Lower α) : Prop :=
  Emit.Moves base m.run m'.run

theorem Moves.pure {a a' : α} (h : Moved base a a') : Moves base (pure a) (pure a') :=
  ⟨fun hd => ⟨⟨h⟩, hd⟩⟩

theorem Moves.throw (e : CompileError) : Moves base (throw e : Lower α) (throw e) :=
  ⟨fun hd => ⟨⟨rfl⟩, hd⟩⟩

/-- Code that cannot fail. -/
theorem Moves.lift {m m' : Emit α} (h : m.Moves base m') :
    Moves base (liftM m : Lower α) (liftM m') := by
  refine ⟨fun {d d'} hd => ?_⟩
  obtain ⟨ha, h'⟩ := h.moves hd
  exact ⟨⟨ha⟩, h'⟩

theorem Moves.bind {m m' : Lower α} {f f' : α → Lower β} (hm : Moves base m m')
    (hf : ∀ a a', Moved base a a' → Moves base (f a) (f' a')) :
    Moves base (m >>= f) (m' >>= f') := by
  refine ⟨fun {d d'} hd => ?_⟩
  obtain ⟨hresult, hd₁⟩ := hm.moves hd
  have hstep : ∀ (m : Lower α) (f : α → Lower β) (d : Draft), (m >>= f).run d =
      match m.run d with
      | (.ok a, d₁) => (f a).run d₁
      | (.error e, d₁) => (.error e, d₁) := by
    intro m f d
    show (ExceptT.bind m f).run d = _
    simp only [ExceptT.bind, ExceptT.run, ExceptT.mk, Bind.bind, StateT.bind]
    rcases m d with ⟨_ | _, _⟩ <;> rfl
  rw [hstep, hstep]
  rcases hrun : m.run d with ⟨result, d₁⟩
  rcases hrun' : m'.run d' with ⟨result', d₁'⟩
  rw [hrun, hrun'] at hresult hd₁
  match result, result', hresult.moved with
  | .ok a, .ok a', ha => exact (hf a a' ha).moves hd₁
  | .error e, .error e', he => exact ⟨⟨he⟩, hd₁⟩

end Lower

/-! ### Inputs and generators -/

section

variable {base : Draft} {h : Heap}

/-- Code of a node that only moves with the draft it is added to. -/
def Node.Relocates (h : Heap) (node : Node) : Prop :=
  ∀ base request, Lower.Moves base (lowerNode h node request) (lowerNode h node request)

theorem lowerInputs_moves {nodes : List Node} (hnodes : ∀ node ∈ nodes, node.Relocates h)
    (requests : List Request) :
    Lower.Moves base (lowerInputs h nodes requests) (lowerInputs h nodes requests) := by
  induction nodes generalizing requests with
  | nil =>
    rw [lowerInputs.eq_def]
    exact .pure inferInstance
  | cons node nodes ih =>
    cases requests with
    | nil =>
      rw [lowerInputs.eq_def]
      exact .pure inferInstance
    | cons request requests =>
      rw [lowerInputs]
      rw [List.forall_mem_cons] at hnodes
      exact .bind (hnodes.1 base request) fun _ _ _ => .bind (ih hnodes.2 requests) fun _ _ _ =>
        .pure inferInstance

theorem castInputs_moves (who : Ref) {rs rs' : List Reg} (hrs : List.Forall₂ (Moved base) rs rs')
    (nodes : List Node) (requests : List Request) :
    Emit.Moves base (castInputs who rs nodes requests) (castInputs who rs' nodes requests) := by
  induction hrs generalizing nodes requests with
  | nil =>
    unfold castInputs
    infer_instance
  | cons hr hrest ih =>
    cases nodes with
    | nil => simp only [castInputs]; infer_instance
    | cons node nodes =>
      cases requests with
      | nil => simp only [castInputs]; infer_instance
      | cons request requests =>
        rw [castInputs, castInputs]
        exact .bind inferInstance fun _ _ _ => .bind (ih nodes requests) fun _ _ _ => inferInstance

theorem emitNode_moves (head : NodeHead) {rs rs' : List Reg}
    (hrs : List.Forall₂ (Moved base) rs rs') :
    Lower.Moves base (emitNode h head rs) (emitNode h head rs') := by
  obtain ⟨node, id, who, g, returns⟩ := head
  have hall := Moved.list hrs
  have hlength := hrs.length_eq
  cases g
  case execProcedure | noOp | tag | sum | product | bitAnd | bitOr | bitXor | rerandom | infixError
      | repcount | lastError | pause | bye | data | makeLocal | printing | showing | typing | turtle
      | pos | heading | penDownP | shownP | resume =>
    exact .lift inferInstance
  case throwing =>
    rcases hrs with _ | ⟨ha, hrest⟩
    · exact .throw _
    · have hrest := Moved.list hrest
      exact .lift inferInstance
  case ifTrueThen | ifElse =>
    rcases hrs with _ | ⟨ha, _ | ⟨hb, hrest⟩⟩
    · exact .throw _
    · exact .throw _
    · have hrest := Moved.list hrest
      exact .lift inferInstance
  all_goals
    rcases hrs with _ | ⟨ha, _ | ⟨hb, _ | ⟨hc, hrest⟩⟩⟩
    all_goals
      first
      | exact .lift inferInstance
      | exact .throw _
      | (unfold emitNode; dsimp only; rw [hlength]; exact .throw _)

/-! ### Choices and ways out -/

theorem lowerChoices_moves (head : NodeHead) (conj : Bool) {inputs : List Node}
    (hinputs : ∀ input ∈ inputs, input.Relocates h) {result result' : Reg} {exit exit' : Label}
    [hresult : Moved base result result'] [hexit : Moved base exit exit'] :
    Lower.Moves base (lowerChoices h head conj result exit inputs)
      (lowerChoices h head conj result' exit' inputs) := by
  induction inputs with
  | nil =>
    rw [lowerChoices, lowerChoices]
    exact .pure inferInstance
  | cons operand rest ih =>
    rw [List.forall_mem_cons] at hinputs
    rw [lowerChoices, lowerChoices]
    refine .bind (hinputs.1 base _) fun _ _ _ => .bind (.lift inferInstance) fun _ _ _ =>
      .bind (.lift inferInstance) fun b b' _ => .bind (.lift inferInstance) fun _ _ _ => ?_
    split
    · exact .pure inferInstance
    · refine .bind (.lift inferInstance) fun next next' _ => .bind (.lift ?_) fun _ _ _ =>
        ih hinputs.2
      split <;> infer_instance

theorem emitChoice_moves (conj noInputs : Bool) {inputs inputs' : Reg → Label → Lower Unit}
    (hinputs : ∀ r r' l l', Moved base r r' → Moved base l l' →
      Lower.Moves base (inputs r l) (inputs' r' l')) :
    Lower.Moves base (emitChoice conj noInputs inputs) (emitChoice conj noInputs inputs') := by
  unfold emitChoice
  refine .bind (.lift inferInstance) fun r r' hr => .bind (.lift inferInstance) fun _ _ _ =>
    .bind (.lift inferInstance) fun _ _ _ => ?_
  split
  · exact .pure inferInstance
  · exact .bind (.lift inferInstance) fun l l' hl => .bind (hinputs r r' l l' hr hl) fun _ _ _ =>
      .bind (.lift inferInstance) fun _ _ _ => .pure inferInstance

/-- Code of a node that moves, also as a tail call. -/
def Node.RelocatesOut (h : Heap) (node : Node) : Prop :=
  ∃ callee args, node = .call callee args ∧ node.Relocates h ∧
    (callee.generator = .execProcedure → ∀ arg ∈ args, arg.Relocates h)

theorem lowerExit_moves (head : NodeHead) (request : Request) {inputs : List Node}
    (hinputs : ∀ input ∈ inputs, input.RelocatesOut h) :
    Lower.Moves base (lowerExit h head request inputs) (lowerExit h head request inputs) := by
  cases inputs with
  | nil =>
    rw [lowerExit]
    exact .bind (.lift inferInstance) fun _ _ _ => .bind (.lift inferInstance) fun _ _ _ =>
      .lift inferInstance
  | cons input inputs =>
    obtain ⟨callee, args, rfl, hcallee, hargs⟩ := hinputs input List.mem_cons_self
    rw [lowerExit]
    refine .bind (.lift inferInstance) fun _ _ _ => ?_
    split
    · next hcall =>
      refine .bind (lowerInputs_moves (hargs hcall) _) fun _ _ hraw => ?_
      refine .bind (.lift (castInputs_moves _ hraw.moved _ _)) fun _ _ _ => ?_
      exact .bind (.lift inferInstance) fun _ _ _ => .lift inferInstance
    · refine .bind (hcallee base request) fun _ _ _ => .bind (.lift inferInstance) fun _ _ _ => ?_
      split
      · exact .bind (.lift inferInstance) fun _ _ _ => .lift inferInstance
      · exact .bind (.pure inferInstance) fun _ _ _ => .lift inferInstance

/-! ### All nodes -/

theorem emitLiteral_moves (value : Ref) (request : Request) :
    Emit.Moves base (emitLiteral h value request) (emitLiteral h value request) := by
  unfold emitLiteral
  repeat' first | infer_instance | split

private theorem relocates_primitive {head : NodeHead} {inputs : List Node} {row : Primitive}
    (hproper : row.Proper) (hgenerator : head.generator = row.generator)
    (hinputs : ∀ input ∈ inputs, input.RelocatesOut h) : (Node.call head inputs).Relocates h := by
  intro base request
  have hrelocates : ∀ input ∈ inputs, input.Relocates h := by
    intro input hinput
    obtain ⟨_, _, _, h, _⟩ := hinputs input hinput
    exact h
  cases hfault : arityFault? h head inputs.length with
  | some helper =>
    rw [lowerNode.eq_def]
    simp only [hfault]
    refine .lift ?_
    unfold emitArityFault
    repeat' first | infer_instance | refine .bind ?_ fun _ _ _ => ?_
  | none =>
    by_cases hspecial : head.generator.isSpecial = true
    · rcases Generator.isSpecial_cases hspecial with hg | hg | hg | hg | ⟨asked, hasked⟩
      · exact absurd (hgenerator ▸ hg) hproper.literal
      · exact absurd (hgenerator ▸ hg) hproper.valueOf
      · rw [(lowerNode_choice true hfault hg request).1]
        exact emitChoice_moves _ _ fun _ _ _ _ _ _ => lowerChoices_moves head true hrelocates
      · rw [(lowerNode_choice false hfault hg request).1]
        exact emitChoice_moves _ _ fun _ _ _ _ _ _ => lowerChoices_moves head false hrelocates
      · rw [(lowerNode_exit hfault hasked request).1]
        exact lowerExit_moves head asked hinputs
    · rw [lowerNode_generic hfault (by simpa using hspecial)]
      exact .bind (lowerInputs_moves hrelocates _) fun _ _ hraw =>
        .bind (.lift (castInputs_moves _ hraw.moved _ _)) fun _ _ hrs => emitNode_moves head hrs.moved

private theorem Node.Built.relocatesOut {node : Node} (hbuilt : node.Built h) :
    node.RelocatesOut h := by
  induction hbuilt with
  | @primitive head inputs name row _ hrow hgenerator _ _ ih =>
    have hproper := (Primitive.find?_eq_some hrow).1
    refine ⟨head, inputs, rfl, relocates_primitive hproper hgenerator ih, fun hcall => ?_⟩
    exact absurd (hgenerator ▸ hcall) hproper.procedure
  | @literal head value hgenerator _ =>
    refine ⟨head, [value], rfl, fun base request => ?_, by simp [hgenerator]⟩
    rw [lowerNode_literal hgenerator]
    exact .lift (emitLiteral_moves _ _)
  | @valueOf head subject hgenerator _ =>
    refine ⟨head, [.datum subject], rfl, fun base request => ?_, by simp [hgenerator]⟩
    rw [lowerNode_valueOf hgenerator]
    exact .lift inferInstance
  | @procedure head inputs hgenerator _ _ ih =>
    have hinputs : ∀ input ∈ inputs, input.Relocates h := by
      intro input hinput
      obtain ⟨_, _, _, h, _⟩ := ih input hinput
      exact h
    refine ⟨head, inputs, rfl, fun base request => ?_, fun _ => hinputs⟩
    rw [lowerNode_generic (by simp [arityFault?, hgenerator])
      (by simp [hgenerator, Generator.isSpecial])]
    exact .bind (lowerInputs_moves hinputs _) fun _ _ hraw =>
      .bind (.lift (castInputs_moves _ hraw.moved _ _)) fun _ _ hrs => emitNode_moves head hrs.moved

/-- **The code of a built node** is the same in every place. -/
theorem Node.Built.relocates {node : Node} (hbuilt : node.Built h) : node.Relocates h := by
  obtain ⟨_, _, _, h, _⟩ := hbuilt.relocatesOut
  exact h

end

end LogoEngine
