import LogoEngine.Proofs.Expression.Operators
import LogoEngine.Proofs.Lower.Checked

/-!
# Lowered expressions at run time

The code that an expression is lowered to gives what the evaluator says, by induction on the
expression: the code of the inputs, the casts and the operator come in the order in which the
evaluator takes its steps.
-/

namespace LogoEngine

/-- Words of one heap that are still there in another. -/
def Heap.WordsIn (h h' : Heap) : Prop :=
  ∀ r word, h.word? r = some word → h'.word? r = some word

namespace Stage

variable {s : Stage} {ρ σ α β : Type} {d : Draft} {w : World} {regs : Array Value}
  {o : Machine.Outcome} {Q : ρ → Draft → Machine.Outcome → Prop}
  {R : Draft → Array Value → ρ → α → Prop} {S : Draft → Array Value → σ → β → Prop}

/-- A run along code that is lowered, if that succeeds. -/
def LowerRuns (s : Stage) (m : Lower ρ) (d : Draft) (o : Machine.Outcome)
    (Q : ρ → Draft → Machine.Outcome → Prop) : Prop :=
  ∀ a d', m.run d = (.ok a, d') → d'.Within s.final → ∃ o', s.Leads o o' ∧ Q a d' o'

theorem LowerRuns.lift {m : Emit ρ} (h : s.Runs m d o Q) :
    s.LowerRuns (liftM m) d o Q := by
  rintro a d' ⟨⟩ hw
  exact h hw

theorem LowerRuns.pure {a : ρ} (h : Q a d o) : s.LowerRuns (Pure.pure a) d o Q := by
  rintro _ _ ⟨⟩ -
  exact ⟨o, .refl, h⟩

/-- Lowered code in a row gives what the evaluator says in a row. -/
theorem LowerRuns.gives_bind {m : Lower ρ} {f : ρ → Lower σ} {result : Except Fault α}
    {next : α → Except Fault β} (hgrows : ∀ r, Lower.Grows (f r))
    (hm : s.LowerRuns m d (s.here d w regs) (s.Gives R d regs w result))
    (hf : ∀ r v d₁ regs₁, Keeps d regs d₁ regs₁ → R d₁ regs₁ r v →
      s.LowerRuns (f r) d₁ (s.here d₁ w regs₁) (s.Gives S d₁ regs₁ w (next v))) :
    s.LowerRuns (m >>= f) d (s.here d w regs) (s.Gives S d regs w (result >>= next)) := by
  intro b d' hrun hw
  obtain ⟨r, d₁, hrun₁, hrun₂⟩ := Lower.exists_of_run_bind hrun
  obtain ⟨o₁, hlead₁, hgives⟩ := hm r d₁ hrun₁ (hgrows r d₁ b d' hrun₂ _ hw)
  cases result with
  | error fault =>
    obtain ⟨e, w', rfl, hreports⟩ := hgives
    exact ⟨_, hlead₁, e, w', rfl, hreports⟩
  | ok v =>
    obtain ⟨regs₁, rfl, hkeeps, hr⟩ := hgives
    obtain ⟨o₂, hlead₂, hgives₂⟩ := hf r v d₁ regs₁ hkeeps hr b d' hrun₂ hw
    exact ⟨o₂, hlead₁.trans hlead₂, hgives₂.trans hkeeps⟩

/-! ### Inputs -/

/-- Registers that hold what stands for the values of inputs. -/
inductive CarriesInputs (h : Heap) (request : Request) (d : Draft) (regs : Array Value) :
    List Node → List Reg → List Value → Prop
  | nil : CarriesInputs h request d regs [] [] []
  | cons {node : Node} {nodes : List Node} {r : Reg} {rs : List Reg} {v : Value} {vs : List Value}
      (hr : CarriesFor h node.returns request d regs r v)
      (hrs : CarriesInputs h request d regs nodes rs vs) :
      CarriesInputs h request d regs (node :: nodes) (r :: rs) (v :: vs)

theorem CarriesFor.keep {h : Heap} {produced request : Request} {d₁ : Draft} {regs₁ : Array Value}
    {r : Reg} {v : Value} (hr : CarriesFor h produced request d regs r v)
    (hkeeps : Keeps d regs d₁ regs₁) : CarriesFor h produced request d₁ regs₁ r v := by
  obtain ⟨u, hu, hstands⟩ := hr
  exact ⟨u, hu.keep hkeeps, hstands⟩

theorem CarriesInputs.keep {h : Heap} {request : Request} {d₁ : Draft} {regs₁ : Array Value}
    {nodes : List Node} {rs : List Reg} {vs : List Value}
    (hrs : CarriesInputs h request d regs nodes rs vs) (hkeeps : Keeps d regs d₁ regs₁) :
    CarriesInputs h request d₁ regs₁ nodes rs vs := by
  induction hrs with
  | nil => exact .nil
  | cons hr _ ih => exact .cons (hr.keep hkeeps) ih

/-- Inputs are cast from left to right, up to the first one that is disliked. -/
theorem gives_castInputs {who : Ref} {request : Request} {read : Value → Except Fault α}
    {R : Draft → Array Value → Reg → α → Prop}
    (hkeep : ∀ {d regs d₁ regs₁ r x}, R d regs r x → Keeps d regs d₁ regs₁ → R d₁ regs₁ r x)
    (hcast : ∀ {d regs produced r v}, regs.size = s.final.types.size →
      CarriesFor w.heap produced request d regs r v →
      s.Runs (Emit.cast r who produced request) d (s.here d w regs)
        (s.Gives R d regs w (read v)))
    {nodes : List Node} {rs : List Reg} {vs : List Value} (hsize : regs.size = s.final.types.size)
    (hrs : CarriesInputs w.heap request d regs nodes rs vs) :
    s.Runs (castInputs who rs nodes (List.replicate nodes.length request)) d (s.here d w regs)
      (s.Gives (fun d regs rs xs => rs.length = nodes.length ∧ List.Forall₂ (R d regs) rs xs)
        d regs w (vs.mapM read)) := by
  induction nodes generalizing d regs rs vs with
  | nil =>
    cases hrs
    exact .gives_pure ⟨rfl, .nil⟩
  | cons node nodes ih =>
    cases hrs with | cons hr hrs =>
    rw [List.mapM_cons]
    refine .gives_bind (hcast hsize hr) fun r x d₁ regs₁ hkeeps hx => ?_
    refine .gives_bind (ih (hkeeps.size.trans hsize) (hrs.keep hkeeps)) ?_
    rintro rs xs d₂ regs₂ hkeeps₂ ⟨hlength, hxs⟩
    exact .gives_pure ⟨congrArg (· + 1) hlength, .cons (hkeep hx hkeeps₂) hxs⟩

/-! ### Nodes -/

variable {h : Heap} {request : Request}

/-- What an expression is asked for: a native value, or its value as the result of a statement. -/
def IsAsked (request : Request) : Prop :=
  request = .real ∨ request = .truth ∨ request = .datumOrNothing

/-- Literals stand for their value, read natively where that is asked for. -/
theorem gives_emitLiteral (hwords : h.WordsIn w.heap) (hrequest : IsAsked request) (value : Ref)
    (hsize : regs.size = s.final.types.size) :
    s.Runs (emitLiteral h value request) d (s.here d w regs)
      (s.Gives (CarriesFor w.heap .datum request) d regs w (.ok (.datum value))) := by
  have hconst : s.Runs (Emit.const value) d (s.here d w regs)
      (s.Gives (CarriesFor w.heap .datum request) d regs w (.ok (.datum value))) :=
    runs_const hsize fun r d' regs' hkeeps hr => ⟨regs', rfl, hkeeps, _, hr, .datum value rfl⟩
  have hread : ∀ {γ : Type} {f : Word → Option γ} {x : γ}, (h.word? value).bind f = some x →
      (w.heap.word? value).bind f = some x := by
    intro γ f x hx
    obtain ⟨word, hword, hf⟩ := Option.bind_eq_some_iff.mp hx
    exact Option.bind_eq_some_iff.mpr ⟨word, hwords _ _ hword, hf⟩
  unfold emitLiteral
  rcases hrequest with rfl | rfl | rfl
  · cases hnumber : h.number? value with
    | none => exact hconst
    | some x =>
      exact runs_real hsize fun r d' regs' hkeeps hr =>
        ⟨regs', rfl, hkeeps, _, hr, .readReal value x rfl (hread hnumber)⟩
  · cases htruth : h.truth? value with
    | none => exact hconst
    | some b =>
      exact runs_truth hsize fun r d' regs' hkeeps hr =>
        ⟨regs', rfl, hkeeps, _, hr, .readTruth value b rfl (hread htruth)⟩
  · exact hconst

/-- The code of a node gives what the node means. -/
def Simulates (s : Stage) (h : Heap) (w : World) (node : Node) (request : Request) : Prop :=
  ∀ d regs, regs.size = s.final.types.size →
    s.LowerRuns (lowerNode h node request) d (s.here d w regs)
      (s.Gives (CarriesFor w.heap node.returns request) d regs w (node.evaluate w))

/-- Inputs are lowered from left to right and run from left to right, up to the first error. -/
theorem gives_lowerInputs {nodes : List Node} (hlowers : ∀ node ∈ nodes, node.Lowers h)
    (hnodes : ∀ node ∈ nodes, s.Simulates h w node request)
    (hsize : regs.size = s.final.types.size) :
    s.LowerRuns (lowerInputs h nodes (List.replicate nodes.length request)) d (s.here d w regs)
      (s.Gives (fun d regs => CarriesInputs w.heap request d regs nodes) d regs w
        (Node.evaluateAll w nodes)) := by
  induction nodes generalizing d regs with
  | nil => 
    rw [lowerInputs.eq_def, Node.evaluateAll]
    exact .pure ⟨regs, rfl, .refl, .nil⟩
  | cons node nodes ih =>
    rw [List.forall_mem_cons] at hlowers hnodes
    rw [List.length_cons, List.replicate_succ, lowerInputs, Node.evaluateAll]
    have hgrows := grows_lowerInputs hlowers.2 (List.replicate nodes.length request)
    refine .gives_bind (fun r => hgrows.bind fun _ => .pure) (hnodes.1 d regs hsize) ?_
    intro r v d₁ regs₁ hkeeps hr
    refine .gives_bind (fun _ => .pure) (ih hlowers.2 hnodes.2 (hkeeps.size.trans hsize)) ?_
    exact fun rs vs d₂ regs₂ hkeeps₂ hrs => .pure ⟨regs₂, rfl, .refl, .cons (hr.keep hkeeps₂) hrs⟩

/-- **Operators.** The code of an operator gives what the operator means if the code of its inputs
does. -/
theorem simulates_operation {head : NodeHead} {inputs : List Node} {word : Word}
    (hwho : w.heap.word? head.name = some word) (hcalm : w.Calm)
    (hoperator : head.generator.isOperator = true)
    (hmin : head.generator.inputBounds.1 ≤ inputs.length)
    (hmax : ∀ bound, head.generator.inputBounds.2 = some bound → inputs.length ≤ bound)
    (hfault : arityFault? h head inputs.length = none)
    (hlowers : ∀ input ∈ inputs, input.Lowers h)
    (hinputs : ∀ input ∈ inputs, s.Simulates h w input head.generator.operand) :
    s.Simulates h w (.call head inputs) request := by
  intro d regs hsize
  have hspecial : head.generator.isSpecial = false := by
    revert hoperator
    cases head.generator <;> simp [Generator.isOperator, Generator.isSpecial]
  rw [lowerNode_generic hfault hspecial,
    Generator.requests_eq_replicate hoperator hmin hmax]
  have hgrows : ∀ raw, Lower.Grows (do
      let rs ← castInputs head.name raw inputs (List.replicate inputs.length head.generator.operand)
      emitNode h head rs) :=
    fun raw => (Lower.Grows.lift _).bind fun rs => grows_emitNode h head rs
  have hraw := gives_lowerInputs (d := d) hlowers hinputs hsize
  -- `NOT` asks for a truth value, and all other operators for numbers
  by_cases hnegation : head.generator = .negation
  · rw [Node.evaluate_negate hnegation]
    refine .gives_bind hgrows hraw fun raw values d₁ regs₁ hkeeps₁ hvalues => ?_
    have hsize₁ := hkeeps₁.size.trans hsize
    rw [Generator.operand, if_pos hnegation] at hvalues ⊢
    have hcasts := gives_castInputs (s := s) (R := CarriesTruth) (fun hr hkeeps => hr.keep hkeeps)
      (fun hsize hr => gives_castTruth hsize hcalm hwho hr) hsize₁ hvalues
    refine .gives_bind (fun rs => grows_emitNode h head rs) (.lift hcasts) ?_
    rintro rs truths d₂ regs₂ hkeeps₂ ⟨hlength, htruths⟩
    obtain ⟨m, hm, hgives⟩ := exists_gives_negate (hkeeps₂.size.trans hsize₁) h hnegation
      (hlength ▸ hmin) (hlength ▸ hmax) htruths
    rw [hm]
    exact .lift hgives
  · rw [Node.evaluate_calculate hoperator hnegation]
    refine .gives_bind hgrows hraw fun raw values d₁ regs₁ hkeeps₁ hvalues => ?_
    have hsize₁ := hkeeps₁.size.trans hsize
    rw [Generator.operand, if_neg hnegation] at hvalues ⊢
    have hcasts := gives_castInputs (s := s) (R := CarriesReal) (fun hr hkeeps => hr.keep hkeeps)
      (fun hsize hr => gives_castReal hsize hcalm hwho hr) hsize₁ hvalues
    refine .gives_bind (fun rs => grows_emitNode h head rs) (.lift hcasts) ?_
    rintro rs xs d₂ regs₂ hkeeps₂ ⟨hlength, hxs⟩
    obtain ⟨m, hm, hgives⟩ := exists_gives_calculate (hkeeps₂.size.trans hsize₁) hcalm hwho h rfl
      hoperator hnegation (hlength ▸ hmin) (hlength ▸ hmax) hxs
    rw [hm]
    exact .lift hgives

/-- **Expressions.** The code of an expression gives what the expression means. -/
theorem simulates_of_expression {node : Node} (hnode : node.Expression h)
    (hwords : h.WordsIn w.heap) (hcalm : w.Calm) (hrequest : IsAsked request) :
    s.Simulates h w node request := by
  -- the inputs of an operator are asked for what it works on, not for what is asked of it
  induction hnode generalizing request with
  | @literal head value hgenerator hreturns =>
    intro d regs hsize
    have hmeaning : (Node.call head [value]).evaluate w = .ok (.datum value.ref) := by
      rw [Node.evaluate.eq_def]
      dsimp only
      rw [hgenerator]
    rw [lowerNode_literal hgenerator, hmeaning]
    show s.LowerRuns _ _ _ (s.Gives (CarriesFor w.heap head.returns request) _ _ _ _)
    rw [hreturns]
    exact .lift (gives_emitLiteral hwords hrequest value.ref hsize)
  | @valueOf head subject hgenerator hreturns =>
    intro d regs hsize
    have hmeaning : (Node.call head [.datum subject]).evaluate w = w.valueOf subject := by
      rw [Node.evaluate.eq_def]
      dsimp only
      rw [hgenerator]
      rfl
    rw [lowerNode_valueOf hgenerator, hmeaning]
    show s.LowerRuns _ _ _ (s.Gives (CarriesFor w.heap head.returns request) _ _ _ _)
    rw [hreturns]
    exact .lift (gives_variableValue hsize subject)
  | @operation head inputs name row hname hrow hgenerator hreturns hoperator hmin hmax hinputs ih =>
    obtain ⟨hbounds, -⟩ := Primitive.operator_of_mem row (Primitive.mem_of_find? hrow) hoperator
    have hfault := arityFault?_eq_none hname hrow hgenerator hmin hmax
    rw [← hgenerator] at hoperator hbounds
    have hasked : IsAsked head.generator.operand := by
      unfold Generator.operand
      split
      · exact .inr (.inl rfl)
      · exact .inl rfl
    refine simulates_operation (hwords _ _ hname) hcalm hoperator ?_ ?_ hfault
      (fun input hinput => (hinputs input hinput).built.lowers)
      fun input hinput => ih input hinput hasked
    · rw [← hbounds]
      exact hmin
    · rw [← hbounds]
      exact hmax

end Stage

end LogoEngine
