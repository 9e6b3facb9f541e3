import LogoEngine.Proofs.Expression.Boxing
import LogoEngine.Proofs.Lower.Checked
import LogoEngine.Proofs.Lower.Handing

/-!
# Inputs of a call

A call evaluates its inputs from left to right, each in the state that the one before left
(`Evaluates`). What an input leaves in its register is looked at only when all inputs have been
evaluated, again from left to right. So it matters in which way a token comes out of an input. If
the code of the input leaves with it, the call is over at once. If the token is the value of the
input, as with `RUN` and user procedures, the inputs behind it are evaluated nevertheless, and the
token comes out afterwards. The call is not made either way.

Main statement: `Stage.Waits.returnsTokens`.
-/

namespace LogoEngine

/-! ### Values that nobody is asked about -/

namespace Heap.Grows

variable {h h' : Heap} {r : Ref}

theorem isData (hg : h.Grows h') (hr : h.isData r = true) : h'.isData r = true := by
  rw [Heap.isData, hg.get_eq r (lt_size_of_isData hr)]
  exact hr

theorem isFlow (hg : h.Grows h') (hr : h.isFlow r = true) : h'.isFlow r = true := by
  rw [Heap.isFlow, hg.get_of_ne_nothing]
  · exact hr
  · intro hnothing
    rw [Heap.isFlow, hnothing] at hr
    cases hr

/-- Words are read as before. -/
theorem isSome_accepts (hg : h.Grows h') {request : Request} {v : Value}
    (hv : (request.check.accepts h v).isSome = true) :
    (request.check.accepts h' v).isSome = true := by
  cases v with
  | real | truth | void => cases request <;> cases hv
  | datum o =>
    obtain ⟨word, hword⟩ : ∃ word, h.word? o = some word := by
      cases hword : h.word? o with
      | some word => exact ⟨word, rfl⟩
      | none =>
        cases request <;>
          simp [Request.check, Check.accepts, Heap.number?, Heap.truth?, hword] at hv
    have hword' := hg.word? hword
    cases request <;>
      simpa [Request.check, Check.accepts, Heap.number?, Heap.truth?, hword, hword'] using hv

end Heap.Grows

/-- What a node left, where its consumer takes it and nobody is asked about it: the consumer takes
values of its type, or it is a word that reads as what the consumer asks for. -/
def Value.Taken (h : Heap) (produced request : Request) (v : Value) : Prop :=
  v.IsOf h produced ∧
    (request.takes v.ty = true ∨ (request.check.accepts h v).isSome = true)

theorem Value.Taken.grow {h h' : Heap} {produced request : Request} {v : Value}
    (hv : v.Taken h produced request) (hg : h.Grows h') : v.Taken h' produced request := by
  obtain ⟨hof, htakes⟩ := hv
  refine ⟨?_, htakes.imp_right hg.isSome_accepts⟩
  cases v with
  | real | truth => trivial
  | datum o => exact ⟨hg.isData hof.1, hof.2⟩
  | void => cases hof

/-- No call asks an input for nothing. -/
theorem Generator.ne_of_mem_requests {g : Generator} {n : Nat} {request : Request}
    (hrequest : request ∈ g.requests n) : request ≠ .nothing ∧ request ≠ .datumOrNothing := by
  cases g <;>
    simp only [requests, List.mem_cons, List.not_mem_nil, or_false, List.mem_replicate] at hrequest
  all_goals grind

namespace Stage

variable {s : Stage} {d : Draft} {w : World} {regs : Array Value} {who : Ref} {r : Reg}
  {produced request : Request} {v : Value}

/-- The cast of a value that is taken goes on; all that may have changed is a new word. -/
theorem runs_cast_taken (hsize : regs.size = s.final.types.size)
    (hv : v.Taken w.heap produced request) (hrequest : request ≠ .nothing)
    (hr : Carries d regs r v) :
    s.Runs (Emit.cast r who produced request) d (s.here d w regs) fun _ d' out =>
      ∃ h' regs', out = s.here d' { w with heap := h' } regs' ∧ w.heap.Grows h' ∧
        Keeps d regs d' regs' := by
  obtain ⟨hof, htakes⟩ := hv
  by_cases hword : ∃ word, v.word? = some word
  · -- a native value stays as it is or becomes a word
    obtain ⟨word, hword⟩ := hword
    cases hsuits : request.suits v.ty with
    | true =>
      exact runs_cast_native hr (Value.ty_ne_of_word? hword) hsuits
        ⟨w.heap, regs, rfl, .refl _, .refl⟩
    | false =>
      have hdatum : request.contains .datum = true := by
        rcases htakes with htakes | haccepts
        · rwa [Request.takes, hsuits, Bool.false_or] at htakes
        · cases v <;> cases hword <;> cases request <;> cases haccepts
      refine (runs_cast_newWord hsize hword hsuits hdatum hr).mono fun _ d' out hout => ?_
      obtain ⟨regs', rfl, hkeeps, -⟩ := hout
      exact ⟨_, regs', rfl, .add w.heap (.word word), hkeeps⟩
  obtain ⟨o, rfl⟩ : ∃ o, v = .datum o := by
    cases v with
    | datum o => exact ⟨o, rfl⟩
    | void => cases hof
    | real | truth => exact absurd ⟨_, rfl⟩ hword
  by_cases hdatum : request.contains .datum = true
  · refine (runs_cast_object hsize hof hdatum hr).mono fun _ d' out hout => ?_
    obtain ⟨regs', rfl, hkeeps, -⟩ := hout
    exact ⟨w.heap, regs', rfl, .refl _, hkeeps⟩
  -- a word is read, and the dialogue is over with the first candidate
  have hread : (request.check.accepts w.heap (.datum o)).isSome = true := by
    refine htakes.resolve_left fun htakes => ?_
    cases request <;> first | exact absurd rfl hrequest | exact absurd rfl hdatum | cases htakes
  obtain ⟨u, hu⟩ := Option.isSome_iff_exists.mp hread
  have hgoes : ∀ {r' d' out}, Concludes request.check who w (.datum o) out (s.GoesOn d regs r' d') →
      ∃ h' regs', out = s.here d' { w with heap := h' } regs' ∧ w.heap.Grows h' ∧
        Keeps d regs d' regs' := by
    rintro r' d' out ⟨reports, result, w', hdialogue, hout⟩
    obtain ⟨rfl, rfl⟩ := hdialogue.of_accepts hu
    obtain ⟨regs', rfl, hkeeps, -⟩ := hout
    exact ⟨w'.heap, regs', rfl, .refl _, hkeeps⟩
  cases request with
  | real => exact (runs_cast_number hsize hof hr).mono fun _ _ _ => hgoes
  | truth => exact (runs_cast_truth hsize hof hr).mono fun _ _ _ => hgoes
  | nothing => exact absurd rfl hrequest
  | datum | datumOrNothing | datumOrTruth => exact absurd rfl hdatum

/-- The cast of a token returns it. -/
theorem runs_cast_token (hsize : regs.size = s.final.types.size) {t : Ref}
    (hflow : w.heap.isFlow t = true) (hrequest : request ≠ .datumOrNothing)
    (hr : Carries d regs r (.datum t)) :
    s.Runs (Emit.cast r who .datumOrNothing request) d (s.here d w regs) fun _ _ out =>
      out = .returned t w := by
  refine .congr (Emit.cast_run hr.declares) ?_
  dsimp only [Value.ty, Emit.castAs]
  rw [Emit.castDatum, if_neg hrequest.symm, if_neg nofun, if_pos rfl]
  refine .bind (runs_passToken_flow hsize hr hflow fun d' => ?_)
  exact .skip fun _ _ _ => rfl

end Stage

/-! ### Inputs one after the other -/

/-- The inputs of a call that are evaluated, each with what is asked of it. -/
def NodeHead.operands (head : NodeHead) (inputs : List Node) : List (Node × Request) :=
  inputs.zip (head.generator.requests inputs.length)

/-- **Inputs that are evaluated** one after the other, each in the state that the one before left.
The code of each comes to its end with a value; the registers it leaves are held from then on. -/
inductive Evaluates (re : Reenter) (h : Heap) :
    Pins → World → List (Node × Request) → List Value → Pins → World → Prop
  | nil {pins : Pins} {w : World} : Evaluates re h pins w [] [] pins w
  | cons {pins pins' : Pins} {w w₁ w' : World} {operand : Node} {request : Request}
      {operands : List (Node × Request)} {values : List Value} {regs : Array Value}
      (a : Alone (lowerNode h operand request) re pins)
      (hdone : a.stage.Leads (a.start w) (a.stage.here a.draft w₁ regs))
      (hrest : Evaluates re h (.registers regs :: pins) w₁ operands values pins' w') :
      Evaluates re h pins w ((operand, request) :: operands) (readReg regs a.reg :: values) pins' w'

namespace Evaluates

variable {re : Reenter} {h : Heap} {pins pins₁ pins₂ : Pins} {w w₁ w₂ : World}
  {before after : List (Node × Request)} {values later : List Value}

theorem append (hbefore : Evaluates re h pins w before values pins₁ w₁)
    (hafter : Evaluates re h pins₁ w₁ after later pins₂ w₂) :
    Evaluates re h pins w (before ++ after) (values ++ later) pins₂ w₂ := by
  induction hbefore with
  | nil => exact hafter
  | cons a hdone _ ih => exact .cons a hdone (ih hafter)

end Evaluates

section

variable {s : Stage} {h : Heap} {limit : Nat} {pins pins₁ : Pins} {w w₁ : World}
  {d d' base copy : Draft} {found : Array Value} {nodes inputs : List Node}
  {requests : List Request} {before after : List (Node × Request)} {values : List Value}
  {head : NodeHead} {node operand : Node} {request asked : Request} {rs : List Reg} {r : Reg}

/-- The value of a node, in the register that its code has in the routine of a host. -/
theorem Node.Built.carries {re : Reenter} {regs : Array Value} (hbuilt : node.Built h)
    (a : Alone (lowerNode h node request) re pins)
    (hdone : a.stage.Leads (a.start w) (a.stage.here a.draft w₁ regs))
    (hrun : (lowerNode h node request).run d = (.ok r, d'))
    (hvalue : readReg found r = readReg regs a.reg) :
    Carries d' found r (readReg regs a.reg) := by
  have hfinishes : (lowerNode h node request).Finishes re pins w (readReg regs a.reg) w₁ :=
    ⟨a, regs, hdone, rfl⟩
  obtain ⟨-, hown⟩ := (hbuilt.lowers request {}).of_run a.run
  obtain ⟨-, hdeclares⟩ := (hbuilt.lowers request d).of_run hrun
  exact ⟨(hfinishes.hasType a.run hown).ty_eq.1 ▸ hdeclares, hvalue⟩

namespace Stage.Waits

/-- The inputs in front are evaluated, and a run in the routine of a host comes to the code of the
others. -/
theorem leads_evaluated (hwaits : s.Waits limit pins d found) (hproper : s.Proper)
    (hbuilt : ∀ node ∈ nodes, node.Built h)
    (hrun : (lowerInputs h nodes requests).run d = (.ok rs, d')) (hwithin : d'.Within s.final)
    (hlimit : d'.types.size ≤ limit) (hsplit : nodes.zip requests = before ++ after)
    (hbefore : Evaluates s.re h pins w before values pins₁ w₁) :
    ∃ nodes' requests' rs₁ rs₂ d₁ found₁, nodes'.zip requests' = after ∧
      (∀ node ∈ nodes', node.Built h) ∧
      (lowerInputs h nodes' requests').run d₁ = (.ok rs₂, d') ∧ rs = rs₁ ++ rs₂ ∧
      s.Leads (s.here d w found) (s.here d₁ w₁ found₁) ∧ s.Waits limit pins₁ d₁ found₁ ∧
      Keeps d found d₁ found₁ ∧ List.Forall₂ (Carries d₁ found₁) rs₁ values := by
  induction hbefore generalizing nodes requests rs d found with
  | nil =>
    exact ⟨nodes, requests, [], rs, d, found, hsplit, hbuilt, hrun, rfl, .refl, hwaits, .refl, .nil⟩
  | cons a hdone hrest ih =>
    obtain ⟨nodes, requests, rfl, rfl, hsplit'⟩ := List.zip_eq_cons_iff.mp hsplit
    rw [List.forall_mem_cons] at hbuilt
    rw [lowerInputs] at hrun
    obtain ⟨r, d₁, hrun₁, hrun'⟩ := Lower.exists_of_run_bind hrun
    obtain ⟨rs, d₂, hrun₂, hpure⟩ := Lower.exists_of_run_bind hrun'
    cases hpure
    have hlowers : ∀ node ∈ nodes, node.Lowers h := fun node hnode => (hbuilt.2 node hnode).lowers
    have hbelow₁ := hbuilt.1.lowers.grows _ _ _ _ hrun₁
    have hbelow := grows_lowerInputs hlowers requests _ _ _ hrun₂
    obtain ⟨found₁, hleads, hwaits₁, hvalue, hkept⟩ := a.leads_copy hwaits hproper
      (hbuilt.1.relocates d _) (hbelow _ hwithin) (hbelow.types_size_le.trans hlimit) hrun₁ hdone
    have hkeeps : Keeps d found d₁ found₁ :=
      ⟨hbelow₁.types, hwaits₁.size.trans hwaits.size.symm, hkept⟩
    have hr := hbuilt.1.carries a hdone hrun₁ hvalue
    obtain ⟨nodes', requests', rs₁, rs₂, d₂, found₂, hafter, hbuilt', hrun₃, rfl, hleads', hwaits₂,
      hkeeps', hrs⟩ := ih hwaits₁ hbuilt.2 hrun₂ hsplit'.symm
    exact ⟨nodes', requests', r :: rs₁, rs₂, d₂, found₂, hafter, hbuilt', hrun₃, rfl,
      hleads.trans hleads', hwaits₂, hkeeps.trans hkeeps', .cons (hr.keep hkeeps') hrs⟩

/-- All inputs are evaluated. -/
theorem leads_all (hwaits : s.Waits limit pins d found) (hproper : s.Proper)
    (hbuilt : ∀ node ∈ nodes, node.Built h)
    (hrun : (lowerInputs h nodes requests).run d = (.ok rs, d')) (hwithin : d'.Within s.final)
    (hlimit : d'.types.size ≤ limit)
    (hall : Evaluates s.re h pins w (nodes.zip requests) values pins₁ w₁) :
    ∃ found', s.Leads (s.here d w found) (s.here d' w₁ found') ∧
      found'.size = s.final.types.size ∧ List.Forall₂ (Carries d' found') rs values := by
  obtain ⟨nodes', requests', rs₁, rs₂, d₁, found₁, hzip, -, hrun₁, rfl, hleads, hwaits₁, -, hrs⟩ :=
    hwaits.leads_evaluated hproper hbuilt hrun hwithin hlimit (List.append_nil _).symm hall
  -- no code is left
  have hcode : lowerInputs h nodes' requests' = pure [] := by
    cases nodes' <;> cases requests' <;> first | exact lowerInputs.eq_def .. | cases hzip
  rw [hcode] at hrun₁
  cases hrun₁
  rw [List.append_nil]
  exact ⟨found₁, hleads, hwaits₁.size, hrs⟩

/-- **The code of an input leaves**, and no input behind it is evaluated. -/
theorem returns_of_leaves (hwaits : s.Waits limit pins d found) (hproper : s.Proper)
    (hbuilt : ∀ node ∈ nodes, node.Built h)
    (hrun : (lowerInputs h nodes requests).run d = (.ok rs, d')) (hwithin : d'.Within s.final)
    (hlimit : d'.types.size ≤ limit)
    (hsplit : nodes.zip requests = before ++ (operand, asked) :: after)
    (hbefore : Evaluates s.re h pins w before values pins₁ w₁) {t : Ref} {w₂ : World}
    (hleaves : (lowerNode h operand asked).Leaves s.re pins₁ w₁ t w₂) :
    s.Leads (s.here d w found) (.returned t w₂) := by
  obtain ⟨nodes', requests', rs₁, rs₂, d₁, found₁, hzip, hbuilt', hrun₁, -, hleads, hwaits₁, -⟩ :=
    hwaits.leads_evaluated hproper hbuilt hrun hwithin hlimit hsplit hbefore
  obtain ⟨nodes', requests', rfl, rfl, -⟩ := List.zip_eq_cons_iff.mp hzip
  rw [List.forall_mem_cons] at hbuilt'
  rw [lowerInputs] at hrun₁
  obtain ⟨r, d₂, hrun₂, hrest⟩ := Lower.exists_of_run_bind hrun₁
  obtain ⟨rs, d₃, hrun₃, hpure⟩ := Lower.exists_of_run_bind hrest
  cases hpure
  have hlowers : ∀ node ∈ nodes', node.Lowers h := fun node hnode => (hbuilt'.2 node hnode).lowers
  have hbelow := grows_lowerInputs hlowers requests' _ _ _ hrun₃
  obtain ⟨a, hreturns⟩ := hleaves
  exact hleads.trans (a.leads_returned hwaits₁ hproper (hbuilt'.1.relocates d₁ asked)
    (hbelow _ hwithin) (hbelow.types_size_le.trans hlimit) hrun₂ hreturns)

end Stage.Waits

/-- The inputs in front are taken, and the first token is returned. -/
theorem Stage.runs_castInputs_token {who t : Ref} {later : List Value} {heap : Heap}
    (hgrows : heap.Grows w.heap) (hsize : found.size = s.final.types.size)
    (hsplit : nodes.zip requests = before ++ (operand, asked) :: after)
    (hrequests : ∀ request ∈ requests, request ≠ .nothing ∧ request ≠ .datumOrNothing)
    (hrs : List.Forall₂ (Carries d found) rs (values ++ .datum t :: later))
    (htaken : List.Forall₂ (fun p v => v.Taken heap p.1.returns p.2) before values)
    (hreturns : operand.returns = .datumOrNothing) (hflow : heap.isFlow t = true) :
    s.Runs (castInputs who rs nodes requests) d (s.here d w found) fun _ _ out =>
      ∃ h', heap.Grows h' ∧ out = .returned t { w with heap := h' } := by
  induction htaken generalizing nodes requests rs d found w with
  | nil =>
    obtain ⟨nodes, requests, rfl, rfl, -⟩ := List.zip_eq_cons_iff.mp hsplit
    obtain ⟨r, rs, hr, -, rfl⟩ := List.forall₂_cons_right_iff.mp hrs
    rw [List.forall_mem_cons] at hrequests
    rw [castInputs, hreturns]
    refine .bind ((runs_cast_token hsize (hgrows.isFlow hflow) hrequests.1.2 hr).mono ?_)
    rintro r' d₁ _ rfl
    exact .skip fun _ _ _ => ⟨w.heap, hgrows, rfl⟩
  | @cons p v before values hv _ ih =>
    obtain ⟨nodes, requests, rfl, rfl, hsplit'⟩ := List.zip_eq_cons_iff.mp hsplit
    obtain ⟨r, rs, hr, hrs', rfl⟩ := List.forall₂_cons_right_iff.mp hrs
    rw [List.forall_mem_cons] at hrequests
    rw [castInputs]
    refine .bind ((runs_cast_taken hsize (hv.grow hgrows) hrequests.1.1 hr).mono ?_)
    rintro r' d₁ _ ⟨h₁, found₁, rfl, hgrows₁, hkeeps⟩
    refine .bind ((ih (hgrows.trans hgrows₁) (hkeeps.size.trans hsize) hsplit'.symm hrequests.2
      (hrs'.imp fun _ _ h => h.keep hkeeps)).mono ?_)
    exact fun _ _ _ hout => .pure hout

/-- **What tokens among inputs do** to a run at `o` that is about to evaluate them, if the inputs in
front are done. -/
structure Stage.ReturnsTokens (s : Stage) (h : Heap) (pins : Pins) (w : World)
    (operands : List (Node × Request)) (o : Machine.Outcome) : Prop where
  /-- If the code of an input leaves with a token, the run ends with it, in the state in which it
  came out: nothing behind is evaluated. -/
  left : ∀ {before operand asked after values pins₁ w₁ t w₂},
    operands = before ++ (operand, asked) :: after →
    Evaluates s.re h pins w before values pins₁ w₁ →
    (lowerNode h operand asked).Leaves s.re pins₁ w₁ t w₂ → s.Leads o (.returned t w₂)
  /-- A token that is the value of an input is looked at when the inputs behind have been evaluated
  too, and the run ends with it in the state that the last of them left. All that may be new are the
  words that native values in front were made. -/
  value : ∀ {before operand asked after values t later pins' w'},
    operands = before ++ (operand, asked) :: after →
    Evaluates s.re h pins w operands (values ++ .datum t :: later) pins' w' →
    operand.returns = .datumOrNothing → w'.heap.isFlow t = true →
    List.Forall₂ (fun p v => v.Taken w'.heap p.1.returns p.2) before values →
    ∃ h', w'.heap.Grows h' ∧ s.Leads o (.returned t { w' with heap := h' })

/-- Tokens among inputs end the code of the inputs, wherever it stands. -/
theorem Stage.Waits.returnsTokens_of_arguments (hwaits : s.Waits limit pins base found)
    (hproper : s.Proper) (hbuilt : ∀ input ∈ inputs, input.Built h)
    (hrun : (lowerArguments h head inputs).run base = (.ok rs, copy))
    (hwithin : copy.Within s.final) (hlimit : copy.types.size ≤ limit) (w : World) :
    s.ReturnsTokens h pins w (head.operands inputs) (s.here base w found) := by
  obtain ⟨raw, d, hraw, hlift⟩ := Lower.exists_of_run_bind hrun
  have hcast :
      (castInputs head.name raw inputs (head.generator.requests inputs.length) d).2 = copy :=
    congrArg Prod.snd hlift
  have hbelow : d.Below copy := hcast ▸ .of_emit _
  have hle := hbelow.types_size_le.trans hlimit
  refine ⟨fun hsplit hbefore hleaves => ?_, fun hsplit hall hreturns hflow htaken => ?_⟩
  · exact hwaits.returns_of_leaves hproper hbuilt hraw (hbelow _ hwithin) hle hsplit hbefore
      hleaves
  · obtain ⟨found', hleads, hsize, hrs⟩ :=
      hwaits.leads_all hproper hbuilt hraw (hbelow _ hwithin) hle hall
    obtain ⟨_, hleads', h', hgrows, rfl⟩ := Stage.runs_castInputs_token (.refl _) hsize hsplit
      (fun _ => Generator.ne_of_mem_requests) hrs htaken hreturns hflow
      (hcast ▸ hwithin)
    exact ⟨h', hgrows, hleads.trans hleads'⟩

/-- The code of a call: that of its inputs, which are built, and then its own. -/
theorem Node.Built.exists_arguments (hbuilt : (Node.call head inputs).Built h)
    (hspecial : head.generator.isSpecial = false) (hfault : arityFault? h head inputs.length = none)
    (hrun : (lowerNode h (.call head inputs) request).run base = (.ok r, copy)) :
    (∀ input ∈ inputs, input.Built h) ∧
      ∃ rs d, (lowerArguments h head inputs).run base = (.ok rs, d) ∧ d.Below copy := by
  constructor
  · cases hbuilt with
    | primitive _ _ _ _ _ _ hinputs | procedure _ _ hinputs => exact hinputs
    | literal _ hgenerator | valueOf _ hgenerator =>
      rw [hgenerator] at hspecial
      cases hspecial
  · rw [lowerNode_generic hfault hspecial, ← bind_assoc] at hrun
    obtain ⟨rs, d, hrun₁, hrun₂⟩ := Lower.exists_of_run_bind hrun
    exact ⟨rs, d, hrun₁, grows_emitNode h head rs _ _ _ hrun₂⟩

/-- **Tokens among the inputs of a call** of a procedure or primitive: the call ends with the first
token that the code of an input leaves with, and if there is none, with the first that is the value
of an input, where the values in front of it are what the call asked for. Only in the first case are
the inputs behind the token left out, and in neither is the call made. -/
theorem Stage.Waits.returnsTokens (hwaits : s.Waits limit pins base found) (hproper : s.Proper)
    (hbuilt : (Node.call head inputs).Built h) (hspecial : head.generator.isSpecial = false)
    (hfault : arityFault? h head inputs.length = none)
    (hrun : (lowerNode h (.call head inputs) request).run base = (.ok r, copy))
    (hwithin : copy.Within s.final) (hlimit : copy.types.size ≤ limit) (w : World) :
    s.ReturnsTokens h pins w (head.operands inputs) (s.here base w found) := by
  obtain ⟨hinputs, rs, d, hrun', hbelow⟩ := hbuilt.exists_arguments hspecial hfault hrun
  exact hwaits.returnsTokens_of_arguments hproper hinputs hrun' (hbelow _ hwithin)
    (hbelow.types_size_le.trans hlimit) w

end

/-- The call of a procedure without inputs comes to its end with what the procedure returns. -/
theorem exists_evaluates_procedure {h : Heap} {callee : NodeHead} {re : Reenter} {w w' : World}
    {t : Ref} (hbuilt : (Node.call callee []).Built h)
    (hgenerator : callee.generator = .execProcedure) (request : Request)
    (hcall : ∀ pins, re.procedure pins callee.ref [] w = .ok (t, w')) (pins : Pins) :
    ∃ pins', Evaluates re h pins w [(.call callee [], request)] [.datum t] pins' w' := by
  obtain ⟨a⟩ := exists_alone (hbuilt.lowers request {}) re pins
  have hcode : lowerNode h (.call callee []) request =
      liftM (Emit.procedureCall callee.ref []) := by
    have hemit : emitNode h callee [] = liftM (Emit.procedureCall callee.ref []) := by
      cases callee
      cases hgenerator
      rfl
    rw [lowerNode_generic (by rw [arityFault?, hgenerator]) (by rw [hgenerator]; rfl),
      lowerInputs.eq_def]
    exact hemit
  have hrun : Emit.procedureCall callee.ref [] {} = (a.reg, a.draft) :=
    Lower.of_run_lift (by rw [← hcode]; exact a.run)
  have hsize : (initialRegisters a.stage.final.types).size = a.stage.final.types.size :=
    Array.size_map
  have hruns : a.stage.Runs (Emit.procedureCall callee.ref []) {} (a.start w) fun r d out =>
      ∃ regs, out = a.stage.here d w' regs ∧ readReg regs r = .datum t := by
    refine .bind (Stage.runs_const hsize fun self d₁ regs₁ hkeeps hself => ?_)
    have hreturns : ∀ pins, callHelper a.stage.re pins .runProcedure [.datum callee.ref] w =
        .ok (.datum t, w') := fun pins => map_datum_apply (by rw [a.re_eq]; exact hcall pins)
    exact Stage.runs_call (hkeeps.size.trans hsize) (.cons hself .nil) hreturns rfl
      fun r d regs _ hr => ⟨regs, rfl, hr.reads⟩
  obtain ⟨_, hleads, regs, rfl, hread⟩ := hruns (by rw [hrun]; exact a.within)
  rw [hrun] at hleads hread
  have hevaluates := Evaluates.cons a hleads .nil
  rw [hread] at hevaluates
  exact ⟨_, hevaluates⟩

namespace Late

/-- The words `print`, `f` and `g`, and the token that `f` returns. -/
def heap : Heap where
  objects := #[.nothing, .word (.text "print"), .word (.text "f"), .word (.text "g"),
    .ret ⟨5⟩ none]

/-- The input `f`. -/
def first : NodeHead :=
  ⟨⟨5⟩, 1, ⟨2⟩, .execProcedure, .datumOrNothing⟩

/-- The input `g`. -/
def second : NodeHead :=
  ⟨⟨6⟩, 2, ⟨3⟩, .execProcedure, .datumOrNothing⟩

/-- The expression `(print f g)`. -/
def head : NodeHead :=
  ⟨⟨7⟩, 3, ⟨1⟩, .printing, .nothing⟩

/-- The procedures: `f` returns a token, and `g` writes. -/
def procedures : Reenter where
  list _ _ w := .ok (Ref.nothing, w)
  procedure _ node _ w :=
    if node = first.ref then .ok (⟨4⟩, w)
    else .ok (⟨3⟩, { w with host := w.host.write "late" })

theorem steady_procedures : procedures.Steady :=
  ⟨fun _ => rfl, fun _ => rfl⟩

theorem built_first : (Node.call first []).Built heap := by
  decide +kernel

theorem built_second : (Node.call second []).Built heap := by
  decide +kernel

theorem built_print : (Node.call head [.call first [], .call second []]).Built heap := by
  decide +kernel

/-- The token of `f` comes out of `(print f g)` when `g` has written. -/
theorem exists_returnsTokens_late : ∃ (s : Stage) (copy : Draft) (result : Reg) (h' : Heap),
    (lowerNode heap (.call head [.call first [], .call second []]) .nothing).run {} =
      (.ok result, copy) ∧ copy.Within s.final ∧ heap.Grows h' ∧
    s.Leads (s.here {} { heap := heap } (initialRegisters s.code.types))
      (.returned ⟨4⟩ { heap := h', host := Host.write {} "late" }) := by
  obtain ⟨a⟩ := exists_alone (built_print.lowers .nothing {}) procedures []
  let w : World := { heap := heap }
  have htokens := (a.stage.waits_initial a.draft.types.size).returnsTokens
    (a.proper steady_procedures) built_print rfl (by decide +kernel) a.run a.within
    (Nat.le_refl _) w
  obtain ⟨pins₁, hfirst⟩ : ∃ pins', Evaluates a.stage.re heap a.stage.pins w
      [(.call first [], .datum)] [.datum ⟨4⟩] pins' w :=
    exists_evaluates_procedure built_first rfl .datum (fun _ => by rw [a.re_eq]; rfl)
      a.stage.pins
  obtain ⟨pins₂, hsecond⟩ : ∃ pins', Evaluates a.stage.re heap pins₁ w
      [(.call second [], .datum)] [.datum ⟨3⟩] pins' { w with host := w.host.write "late" } :=
    exists_evaluates_procedure built_second rfl .datum (fun _ => by rw [a.re_eq]; rfl) pins₁
  have hsplit : head.operands [.call first [], .call second []] =
      [] ++ (.call first [], .datum) :: [(.call second [], .datum)] := rfl
  have hvalues : Evaluates a.stage.re heap a.stage.pins w
      (head.operands [.call first [], .call second []]) ([] ++ .datum ⟨4⟩ :: [.datum ⟨3⟩]) pins₂
      { w with host := w.host.write "late" } := hfirst.append hsecond
  obtain ⟨h', hgrows, hleads⟩ := htokens.value hsplit hvalues rfl (by decide +kernel) .nil
  exact ⟨a.stage, a.draft, a.reg, h', a.run, a.within, hgrows, hleads⟩

end Late

end LogoEngine
