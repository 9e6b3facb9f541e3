import LogoEngine.Proofs.Lower.Generators

/-!
# Code of nodes

What lowering makes of a built node: it never fails, the register it leaves has the type
`Node.rawTy`, and drafts stay sound. Code is strict-sound, that is typed throughout, if the node
fits.

Main statement: `Node.Built.lowers`, by induction over built nodes; the parts about inputs, choices
and ways out take what is known of the nodes below as a hypothesis.
-/

namespace LogoEngine

/-- One draft is part of another. -/
def Draft.Below (d d' : Draft) : Prop :=
  ∀ final, d'.Within final → d.Within final

namespace Draft.Below

variable {d d₁ d₂ : Draft}

theorem refl : d.Below d := fun _ h => h

theorem trans (h : d.Below d₁) (h' : d₁.Below d₂) : d.Below d₂ := fun _ hw => h _ (h' _ hw)

theorem of_emit {α : Type} (m : Emit α) [hm : Emit.Grows m] : d.Below (m d).2 :=
  fun _ h => hm.within h

theorem types (h : d.Below d₁) : d.types.toList <+: d₁.types.toList :=
  (h _ d₁.within_closed).types

theorem types_size_le (h : d.Below d₁) : d.types.size ≤ d₁.types.size :=
  (h _ d₁.within_closed).types_size_le

theorem nextLabel_le (h : d.Below d₁) : d.nextLabel ≤ d₁.nextLabel :=
  (h _ d₁.within_closed).labels

end Draft.Below

namespace Lower

variable {α β : Type} {d : Draft} {κ : Prop} {φ ψ χ θ : Prop → Prop} {Q : Array Ty → α → Prop}
  {R : Array Ty → β → Prop}

/-- What lowering does from a draft on: it succeeds with registers as `Q` says, and leads on as
code does, where strict drafts need `κ`. -/
def Spec (m : Lower α) (d : Draft) (κ : Prop) (φ ψ : Prop → Prop) (Q : Array Ty → α → Prop) :
    Prop :=
  ∃ a d', m.run d = (.ok a, d') ∧ d.Below d' ∧ Q d'.types a ∧
    ∀ final strict, (strict → κ) → d'.Within final →
      Leads final strict d (φ strict) d' (ψ strict)

theorem run_bind {m : Lower α} {f : α → Lower β} {a : α} {d' : Draft}
    (h : m.run d = (.ok a, d')) : (m >>= f).run d = (f a).run d' := by
  show (ExceptT.bind m f).run d = _
  simp only [ExceptT.bind, ExceptT.run, ExceptT.mk, bind, StateT.bind] at h ⊢
  rw [h]
  rfl

namespace Spec

theorem pure {a : α} (h : Q d.types a) (hφ : ∀ strict, (strict → κ) → φ strict → ψ strict) :
    Spec (pure a) d κ φ ψ Q :=
  ⟨a, d, rfl, .refl, h, fun _ strict hκ _ => .refl (hφ strict hκ)⟩

theorem bind {m : Lower α} {f : α → Lower β} (hm : Spec m d κ φ ψ Q)
    (hf : ∀ a d', d.Below d' → Q d'.types a → Spec (f a) d' κ ψ χ R) :
    Spec (m >>= f) d κ φ χ R := by
  obtain ⟨a, d₁, hrun, hle, hQ, hleads⟩ := hm
  obtain ⟨b, d₂, hrun', hle', hR, hleads'⟩ := hf a d₁ hle hQ
  refine ⟨b, d₂, by rw [run_bind hrun, hrun'], hle.trans hle', hR, fun final strict hκ hw => ?_⟩
  exact (hleads final strict hκ (hle' _ hw)).trans (hleads' final strict hκ hw) hle.nextLabel_le

/-- Code that cannot fail. -/
theorem lift {m : Emit α} [Emit.Grows m] (h : m.Spec d φ ψ Q) :
    Spec (liftM m) d κ φ ψ Q :=
  ⟨(m d).1, (m d).2, rfl, .of_emit m, h.result, fun final strict _ hw => h.leads final strict hw⟩

theorem mono {m : Lower α} {κ' : Prop} (h : Spec m d κ φ ψ Q) (hκ : κ' → κ)
    (hφ : ∀ strict, (strict → κ') → θ strict → φ strict)
    (hψ : ∀ strict, (strict → κ') → ψ strict → χ strict) : Spec m d κ' θ χ Q := by
  obtain ⟨a, d', hrun, hle, hQ, hleads⟩ := h
  refine ⟨a, d', hrun, hle, hQ, fun final strict hκ' hw => ?_⟩
  exact (hleads final strict (fun h => hκ (hκ' h)) hw).mono (hφ strict hκ') (hψ strict hκ')

/-- What was known is still known. -/
theorem frame {m : Lower α} (h : Spec m d κ φ ψ Q) (θ : Prop → Prop) :
    Spec m d κ (fun strict => φ strict ∧ θ strict) (fun strict => ψ strict ∧ θ strict) Q := by
  obtain ⟨a, d', hrun, hle, hQ, hleads⟩ := h
  exact ⟨a, d', hrun, hle, hQ, fun final strict hκ hw =>
    (hleads final strict hκ hw).frame (θ strict)⟩

end Spec

end Lower

/-! ### Inputs -/

/-- What lowering a node must do. -/
def Node.Lowers (h : Heap) (node : Node) : Prop :=
  ∀ request d, Lower.Spec (lowerNode h node request) d (node.fits h = true) (fun _ => True)
    (fun strict => strict ∨ node.returns.delivers (node.rawTy h request) = true)
    fun types r => Declares types r (node.rawTy h request)

section

variable {h : Heap} {d : Draft} {who : Ref}

theorem lowerInputs_spec {nodes : List Node} (hnodes : ∀ node ∈ nodes, node.Lowers h)
    (requests : List Request) :
    Lower.Spec (lowerInputs h nodes requests) d (∀ p ∈ nodes.zip requests, p.1.fits h = true)
      (fun _ => True)
      (fun strict => strict ∨
        ∀ p ∈ nodes.zip requests, p.1.returns.delivers (p.1.rawTy h p.2) = true)
      fun types rs => List.Forall₂ (Declares types) rs
        ((nodes.zip requests).map fun p => p.1.rawTy h p.2) := by
  induction nodes generalizing requests d with
  | nil => exact .pure .nil fun _ _ _ => .inr (by simp)
  | cons node nodes ih =>
    cases requests with
    | nil => exact .pure .nil fun _ _ _ => .inr (by simp)
    | cons request requests =>
      simp only [List.zip_cons_cons, List.forall_mem_cons, List.map_cons]
      refine ((hnodes node List.mem_cons_self request d).mono And.left (fun _ _ h => h)
        fun _ _ h => h).bind fun r d₁ hle₁ hr => ?_
      have hrest := ih (fun n hn => hnodes n (List.mem_cons_of_mem _ hn)) requests (d := d₁)
      refine Lower.Spec.bind ((hrest.frame fun strict =>
        strict ∨ node.returns.delivers (node.rawTy h request) = true).mono And.right
          (fun _ _ h => ⟨trivial, h⟩) fun _ _ h => h) fun rs d₂ hle₂ hrs => ?_
      refine .pure (.cons (hr.mono hle₂.types) hrs) fun strict _ h => ?_
      rcases h with ⟨hstrict | hrest, hstrict' | hfirst⟩
      · exact .inl hstrict
      · exact .inl hstrict
      · exact .inl hstrict'
      · exact .inr ⟨hfirst, hrest⟩

instance (rs : List Reg) (nodes : List Node) (requests : List Request) :
    Emit.Grows (castInputs who rs nodes requests) := by
  induction rs generalizing nodes requests with
  | nil => unfold castInputs; infer_instance
  | cons r rs ih =>
    cases nodes with
    | nil => unfold castInputs; infer_instance
    | cons node nodes =>
      cases requests with
      | nil => unfold castInputs; infer_instance
      | cons request requests =>
        have := ih nodes requests
        unfold castInputs
        infer_instance

theorem castInputs_spec {nodes : List Node} {requests : List Request} {rs : List Reg}
    (hrs : List.Forall₂ (Declares d.types) rs
      ((nodes.zip requests).map fun p => p.1.rawTy h p.2)) :
    (castInputs who rs nodes requests).Spec d
      (fun strict => strict ∨
        ∀ p ∈ nodes.zip requests, p.1.returns.delivers (p.1.rawTy h p.2) = true)
      (fun strict => strict ∨ ∀ p ∈ nodes.zip requests, p.1.suits h p.2 = true)
      fun types rs => List.Forall₂ (Declares types) rs
        ((nodes.zip requests).map fun p => p.2.castTy p.1.returns (p.1.rawTy h p.2)) := by
  induction nodes generalizing requests rs d with
  | nil => cases hrs; exact .pure .nil fun _ _ => .inr (by simp)
  | cons node nodes ih =>
    cases requests with
    | nil => cases hrs; exact .pure .nil fun _ _ => .inr (by simp)
    | cons request requests =>
      simp only [List.zip_cons_cons, List.forall_mem_cons, List.map_cons] at hrs ⊢
      cases hrs with
      | @cons r _ rs _ hr hrs =>
      unfold castInputs
      refine (((Emit.cast_spec hr).frame fun strict => strict ∨
        ∀ p ∈ nodes.zip requests, p.1.returns.delivers (p.1.rawTy h p.2) = true).mono
          (fun _ h => ?_) fun _ h => h).bind fun r' d₁ hle₁ hr' => ?_
      · exact ⟨h.imp id And.left, h.imp id And.right⟩
      refine (((ih (hrs.imp fun _ _ h => h.mono hle₁)).frame
        fun strict => strict ∨ node.suits h request = true).mono (fun _ h => h.symm)
          fun _ h => h).bind fun rs' d₂ hle₂ hrs' => ?_
      refine .pure (.cons (hr'.mono hle₂) hrs') fun strict h => ?_
      rcases h with ⟨hstrict | hrest, hstrict' | hfirst⟩
      · exact .inl hstrict
      · exact .inl hstrict
      · exact .inl hstrict'
      · exact .inr ⟨hfirst, hrest⟩

end

/-! ### Nodes -/

section

variable {h : Heap} {d : Draft} {head : NodeHead} {inputs : List Node}

/-- Registers of the types that casts give are what the consumer asked for. -/
theorem supplies_of_declares {s : Scope} {φ : Prop} (hs : s.From d φ) {nodes : List Node}
    {requests : List Request} {rs : List Reg}
    (hrs : List.Forall₂ (Declares d.types) rs
      ((nodes.zip requests).map fun p => p.2.castTy p.1.returns (p.1.rawTy h p.2)))
    (hsuits : s.alive → ∀ p ∈ nodes.zip requests, p.1.suits h p.2 = true)
    (hlength : requests.length ≤ nodes.length) : List.Forall₂ s.Supplies rs requests := by
  induction requests generalizing nodes rs with
  | nil => simp only [List.zip_nil_right, List.map_nil] at hrs; cases hrs; exact .nil
  | cons request requests ih =>
    cases nodes with
    | nil => simp at hlength
    | cons node nodes =>
      simp only [List.zip_cons_cons, List.map_cons, List.forall_mem_cons] at hrs hsuits
      cases hrs with
      | cons hr hrs =>
      refine .cons ?_ (ih hrs (fun hl => (hsuits hl).2) (by simpa using hlength))
      have hsuit : s.alive → node.suits h request = true := fun hl => (hsuits hl).1
      unfold Node.suits at hsuit
      cases request with
      | real | truth =>
        refine ⟨(hs.is hr).lt_size, fun hl => ?_⟩
        have hty := hsuit hl
        simp only [Request.suits, decide_eq_true_eq] at hty
        rw [hty] at hr
        exact hs.is hr
      | datumOrTruth =>
        refine ⟨by rw [hs.known]; exact hr.lt_size, _, hs.is hr, ?_⟩
        simp only [Request.castTy]
        split <;> simp
      | nothing | datum | datumOrNothing => exact (hs.is hr).reads

theorem inputsFit_iff {passed : Bool} {nodes : List Node} {requests : List Request} :
    Node.inputsFit h passed nodes requests = true ↔
      (∀ p ∈ nodes.zip requests, p.1.fits h = true) ∧
        (passed = true ∨ ∀ p ∈ nodes.zip requests, p.1.suits h p.2 = true) := by
  induction nodes generalizing requests with
  | nil => simp [Node.inputsFit]
  | cons node nodes ih =>
    cases requests with
    | nil => simp [Node.inputsFit]
    | cons request requests =>
      simp only [Node.inputsFit, Bool.and_eq_true, Bool.or_eq_true, ih, List.zip_cons_cons,
        List.forall_mem_cons]
      tauto

theorem lowerNode_generic (hfault : arityFault? h head inputs.length = none)
    (hspecial : head.generator.isSpecial = false) (request : Request) :
    lowerNode h (.call head inputs) request = (do
      let raw ← lowerInputs h inputs (head.generator.requests inputs.length)
      let rs ← castInputs head.name raw inputs (head.generator.requests inputs.length)
      emitNode h head rs) := by
  rw [lowerNode.eq_def]
  dsimp only
  rw [hfault]
  dsimp only
  split <;> first | rfl | simp_all [Generator.isSpecial]

theorem fits_generic (hfault : arityFault? h head inputs.length = none)
    (hspecial : head.generator.isSpecial = false) :
    (Node.call head inputs).fits h =
      Node.inputsFit h (head.generator.folds && inputs.length == 1) inputs
        (head.generator.requests inputs.length) := by
  rw [Node.fits, hfault]
  dsimp only
  split <;> first | rfl | simp_all [Generator.isSpecial]

theorem rawTy_generic (hfault : arityFault? h head inputs.length = none)
    (hspecial : head.generator.isSpecial = false)
    (hpassed : (head.generator.folds && inputs.length == 1) = false) (request : Request) :
    (Node.call head inputs).rawTy h request = head.generator.ty := by
  rw [Node.rawTy.eq_def]
  dsimp only
  rw [hfault]
  dsimp only
  split <;> first | rfl | simp_all [Generator.isSpecial, Generator.folds]

theorem rawTy_passed {input : Node} (hfault : arityFault? h head 1 = none)
    (hfolds : head.generator.folds = true) (request : Request) :
    (Node.call head [input]).rawTy h request =
      Request.real.castTy input.returns (input.rawTy h .real) := by
  rw [Node.rawTy.eq_def]
  dsimp only
  rw [List.length_singleton, hfault]
  dsimp only
  split <;> first | rfl | simp_all [Generator.folds]

/-- A fold over one input is that input, and any other fold is a number. -/
theorem emitNode_folds (h : Heap) {head : NodeHead} (hfolds : head.generator.folds = true)
    (rs : List Reg) :
    ∃ (step : Reg → Reg → Emit Reg) (identity : Float),
      emitNode h head rs = liftM (Emit.fold step identity rs) ∧ (∀ a b, (step a b).Grows) ∧
      (∀ s : Scope, ∀ a b, s.Reads a .real → s.Reads b .real →
        s.Emits (step a b) (s.Is · .real)) ∧ head.generator.ty = .real ∧
      ∀ n, head.generator.requests n = List.replicate n .real := by
  obtain ⟨node, id, who, g, returns⟩ := head
  cases g with
  | sum =>
    exact ⟨Emit.arith .add, 0.0, rfl, fun _ _ => inferInstance,
      fun s _ _ => s.emits_arith .add, rfl, fun _ => rfl⟩
  | product =>
    exact ⟨Emit.arith .mul, 1.0, rfl, fun _ _ => inferInstance,
      fun s _ _ => s.emits_arith .mul, rfl, fun _ => rfl⟩
  | _ => cases hfolds

/-- The code of a generator, after its inputs were cast. -/
theorem emitNode_spec (hfault : arityFault? h head inputs.length = none)
    (hspecial : head.generator.isSpecial = false)
    (hneeds : head.generator.needs ≤ inputs.length)
    (hturtle : ∀ op, head.generator = .turtle op → inputs.length = op.inputs)
    (hdelivers : head.returns.delivers head.generator.ty = true) (request : Request)
    {rs : List Reg}
    (hrs : List.Forall₂ (Declares d.types) rs
      ((inputs.zip (head.generator.requests inputs.length)).map
        fun p => p.2.castTy p.1.returns (p.1.rawTy h p.2))) :
    Lower.Spec (emitNode h head rs) d ((Node.call head inputs).fits h = true)
      (fun strict => strict ∨
        ∀ p ∈ inputs.zip (head.generator.requests inputs.length), p.1.suits h p.2 = true)
      (fun strict => strict ∨
        head.returns.delivers ((Node.call head inputs).rawTy h request) = true)
      fun types r => Declares types r ((Node.call head inputs).rawTy h request) := by
  have hrequests := Generator.length_requests_le hneeds
  have hlength : rs.length = (head.generator.requests inputs.length).length := by
    rw [hrs.length_eq, List.length_map, List.length_zip, Nat.min_eq_right hrequests]
  rw [fits_generic hfault hspecial, inputsFit_iff]
  by_cases hfolds : head.generator.folds = true
  · obtain ⟨step, identity, hm, hgrows, hstep, hty, hreal⟩ := emitNode_folds h hfolds rs
    rw [hm]
    rw [hreal, List.length_replicate] at hlength
    by_cases hone : inputs.length = 1
    · -- a single input is handed through
      obtain ⟨input, rfl⟩ := List.length_eq_one_iff.mp hone
      obtain ⟨r, rfl⟩ := List.length_eq_one_iff.mp hlength
      rw [rawTy_passed hfault hfolds]
      simp only [hreal, List.length_singleton, List.replicate_one, List.zip_cons_cons,
        List.zip_nil_right, List.map_cons, List.map_nil, List.mem_singleton, forall_eq] at hrs ⊢
      refine .lift (.pure (List.forall₂_cons.mp hrs).1 fun strict h => h.imp id fun hsuits => ?_)
      simp only [Node.suits, Request.suits, decide_eq_true_eq] at hsuits
      rw [hsuits]
      rfl
    · have hpassed : (head.generator.folds && inputs.length == 1) = false := by simp [hone]
      rw [rawTy_generic hfault hspecial hpassed, hty]
      refine Lower.Spec.mono (φ := fun _ =>
        ∀ p ∈ inputs.zip (head.generator.requests inputs.length), p.1.suits h p.2 = true)
        (.lift (.of_emits fun s strict hs P d' hstart hreach => ?_)) (fun h => h) ?_ ?_
      · have hreads := supplies_of_declares hs hrs hs.alive hrequests
        rw [hreal] at hreads
        obtain ⟨hr | hr, hok⟩ := s.emits_fold (hstep s) identity
          (.inr (Scope.supplies_replicate hreads)) P d' hstart hreach
        · rw [hr, List.length_singleton] at hlength
          exact absurd hlength.symm hone
        · exact ⟨hr, hok⟩
      · rintro strict hκ (hstrict | hsuits)
        · simpa [hpassed] using (hκ hstrict).2
        · exact hsuits
      · rw [hty] at hdelivers
        exact fun _ _ _ => .inr hdelivers
  have hfolds' : head.generator.folds = false := by simpa using hfolds
  rw [rawTy_generic hfault hspecial (by simp [hfolds'])]
  by_cases hleaves : head.generator.leaves = true
  · obtain ⟨hty, hasked⟩ := Generator.datum_of_leaves hleaves inputs.length
    have hdatum : ∀ r ∈ rs, Declares d.types r .datum := by
      intro r hr
      obtain ⟨ty, hmem, hdeclared⟩ := exists_mem_of_forall₂ hrs hr
      obtain ⟨p, hp, rfl⟩ := List.mem_map.mp hmem
      rw [hasked p.2 (List.of_mem_zip hp).2] at hdeclared
      exact hdeclared
    obtain ⟨m, hm, hgrows, hspec⟩ := exists_emitNode_of_leaves h hleaves
      (hlength ▸ Generator.needs_le_length_requests hneeds) hdatum
    rw [hm, hty]
    exact Lower.Spec.mono (.lift hspec) (fun h => h) (fun _ _ h => h) fun _ _ h => .inl h
  · obtain ⟨m, hm, hgrows, hemits⟩ := exists_emitNode h hlength hneeds hturtle hspecial
      (by simpa using hleaves) hfolds'
    rw [hm]
    refine Lower.Spec.mono (φ := fun _ => ∀ p ∈ inputs.zip (head.generator.requests inputs.length),
      p.1.suits h p.2 = true) (.lift (.of_emits fun s strict hs => ?_)) (fun h => h) ?_ ?_
    · exact hemits s (supplies_of_declares hs hrs hs.alive hrequests)
    · rintro strict hκ (hstrict | hsuits)
      · simpa [hfolds'] using (hκ hstrict).2
      · exact hsuits
    · exact fun _ _ _ => .inr hdelivers

/-- Nodes whose inputs are lowered one after the other, then cast, then used. -/
theorem lowers_generic (hfault : arityFault? h head inputs.length = none)
    (hspecial : head.generator.isSpecial = false)
    (hneeds : head.generator.needs ≤ inputs.length)
    (hturtle : ∀ op, head.generator = .turtle op → inputs.length = op.inputs)
    (hdelivers : head.returns.delivers head.generator.ty = true)
    (hinputs : ∀ input ∈ inputs, input.Lowers h) : (Node.call head inputs).Lowers h := by
  intro request d
  rw [lowerNode_generic hfault hspecial]
  have hfits : (Node.call head inputs).fits h = true →
      ∀ p ∈ inputs.zip (head.generator.requests inputs.length), p.1.fits h = true := by
    rw [fits_generic hfault hspecial, inputsFit_iff]
    exact And.left
  refine ((lowerInputs_spec hinputs _).mono hfits (fun _ _ h => h) fun _ _ h => h).bind
    fun raw d₁ _ hraw => ?_
  refine (Lower.Spec.lift (castInputs_spec hraw)).bind fun rs d₂ _ hrs => ?_
  exact emitNode_spec hfault hspecial hneeds hturtle hdelivers request hrs

/-- Nodes with a wrong number of inputs return an error. -/
theorem lowers_of_fault {helper : Helper}
    (hfault : arityFault? h head inputs.length = some helper) :
    (Node.call head inputs).Lowers h := by
  intro request d
  have hty : (Node.call head inputs).rawTy h request = .datum := by
    rw [Node.rawTy.eq_def]
    dsimp only
    rw [hfault]
  have hrun : lowerNode h (.call head inputs) request = liftM (emitArityFault head helper) := by
    rw [lowerNode.eq_def]
    dsimp only
    rw [hfault]
  have : (emitArityFault head helper).Grows := by unfold emitArityFault; infer_instance
  rw [hrun, hty]
  exact Lower.Spec.mono (.lift (emitArityFault_spec (arityFault?_signature hfault))) (fun h => h)
    (fun _ _ h => h) fun _ _ h => .inl h

theorem Scope.emits_literal (s : Scope) (h : Heap) (value : Ref) (request : Request) :
    s.Emits (emitLiteral h value request) (s.Is · (literalTy h value request)) := by
  unfold emitLiteral literalTy
  cases h.number? value <;> cases request
  case some.real x => exact emits_real x
  all_goals
    first
    | exact emits_const value
    | cases h.truth? value with
      | none => exact emits_const value
      | some b => exact emits_truth b

theorem lowerNode_literal (hgenerator : head.generator = .literal) (value : Node)
    (request : Request) :
    lowerNode h (.call head [value]) request = liftM (emitLiteral h value.ref request) := by
  have hfault : arityFault? h head 1 = none := by simp [arityFault?, hgenerator]
  rw [lowerNode.eq_def]
  dsimp only
  rw [List.length_singleton, hfault, hgenerator]

theorem lowerNode_valueOf (hgenerator : head.generator = .valueOf) (subject : Node)
    (request : Request) :
    lowerNode h (.call head [subject]) request = liftM (Emit.variableValue subject.ref) := by
  have hfault : arityFault? h head 1 = none := by simp [arityFault?, hgenerator]
  rw [lowerNode.eq_def]
  dsimp only
  rw [List.length_singleton, hfault, hgenerator]

theorem lowers_literal (hfault : arityFault? h head 1 = none)
    (hgenerator : head.generator = .literal) (hreturns : head.returns = .datum) (value : Node) :
    (Node.call head [value]).Lowers h := by
  intro request d
  have hty : (Node.call head [value]).rawTy h request = literalTy h value.ref request := by
    rw [Node.rawTy.eq_def]
    dsimp only
    rw [List.length_singleton, hfault, hgenerator]
  have hgrows : (emitLiteral h value.ref request).Grows := by
    unfold emitLiteral
    repeat' split
    all_goals infer_instance
  have hspec : (emitLiteral h value.ref request).Spec d (fun _ => True) (fun _ => True)
      fun types r => Declares types r (literalTy h value.ref request) :=
    .of_emits fun s _ _ => s.emits_literal h value.ref request
  rw [lowerNode_literal hgenerator, hty]
  refine Lower.Spec.mono (.lift hspec) (fun h => h) (fun _ _ h => h) fun _ _ _ => .inr ?_
  rw [show (Node.call head [value]).returns = .datum from hreturns]
  simp [Request.delivers]

theorem lowers_valueOf (hfault : arityFault? h head 1 = none)
    (hgenerator : head.generator = .valueOf) (hreturns : head.returns = .datum) (subject : Node) :
    (Node.call head [subject]).Lowers h := by
  intro request d
  have hty : (Node.call head [subject]).rawTy h request = .datum := by
    rw [Node.rawTy.eq_def]
    dsimp only
    rw [List.length_singleton, hfault, hgenerator]
    rfl
  have hspec : (Emit.variableValue subject.ref).Spec d (fun _ => True) (fun _ => True)
      fun types r => Declares types r .datum :=
    .of_emits fun s _ _ => s.emits_variableValue
  rw [lowerNode_valueOf hgenerator, hty]
  refine Lower.Spec.mono (.lift hspec) (fun h => h) (fun _ _ h => h) fun _ _ _ => .inr ?_
  rw [show (Node.call head [subject]).returns = .datum from hreturns]
  simp [Request.delivers]

end

/-! ### Conjunctions and disjunctions -/

/-- One draft becomes another with ways to a label that lives if the code does; `φ` is known of a
start that lives. -/
def LeadsBy (exit : Label) (final : Draft) (strict : Prop) (d : Draft) (φ : Prop) (d' : Draft) :
    Prop :=
  ∀ marked P, (strict → ∀ l, marked l) → d.Sound final d.nextLabel marked P →
    exit.index < d.nextLabel → (marked d.label → marked exit) → (marked d.label → φ) →
    ∃ marked', (strict → ∀ l, marked' l) ∧
      (∀ l : Label, l.index < d.nextLabel → (marked' l ↔ marked l)) ∧
      d'.Sound final d'.nextLabel marked' P ∧ (marked' d'.label → marked d.label)

section

variable {exit : Label} {final d d₁ d₂ : Draft} {strict φ ψ : Prop}

theorem LeadsBy.refl : LeadsBy exit final strict d φ d :=
  fun marked _ hstrict hsound _ _ _ => ⟨marked, hstrict, fun _ _ => .rfl, hsound, id⟩

theorem LeadsBy.trans (h : LeadsBy exit final strict d φ d₁)
    (h' : LeadsBy exit final strict d₁ True d₂) (hle : d.nextLabel ≤ d₁.nextLabel) :
    LeadsBy exit final strict d φ d₂ := by
  intro marked P hstrict hsound hexit hlive hφ
  obtain ⟨marked₁, hstrict₁, hagree₁, hsound₁, hlive₁⟩ :=
    h marked P hstrict hsound hexit hlive hφ
  obtain ⟨marked₂, hstrict₂, hagree₂, hsound₂, hlive₂⟩ :=
    h' marked₁ P hstrict₁ hsound₁ (Nat.lt_of_lt_of_le hexit hle)
      (fun hl => (hagree₁ exit hexit).mpr (hlive (hlive₁ hl))) fun _ => trivial
  refine ⟨marked₂, hstrict₂, fun l hl => ?_, hsound₂, fun hl => hlive₁ (hlive₂ hl)⟩
  exact (hagree₂ l (Nat.lt_of_lt_of_le hl hle)).trans (hagree₁ l hl)

theorem Leads.trans_leadsBy (h : Leads final strict d φ d₁ ψ)
    (h' : LeadsBy exit final strict d₁ ψ d₂) (hle : d.nextLabel ≤ d₁.nextLabel) :
    LeadsBy exit final strict d φ d₂ := by
  intro marked P hstrict hsound hexit hlive hφ
  obtain ⟨marked₁, hstrict₁, hagree₁, hsound₁, hlive₁, hψ⟩ := h marked P hstrict hsound hφ
  obtain ⟨marked₂, hstrict₂, hagree₂, hsound₂, hlive₂⟩ :=
    h' marked₁ P hstrict₁ hsound₁ (Nat.lt_of_lt_of_le hexit hle)
      (fun hl => (hagree₁ exit hexit).mpr (hlive (hlive₁ hl))) hψ
  refine ⟨marked₂, hstrict₂, fun l hl => ?_, hsound₂, fun hl => hlive₁ (hlive₂ hl)⟩
  exact (hagree₂ l (Nat.lt_of_lt_of_le hl hle)).trans (hagree₁ l hl)

/-- A branch to the exit, or on to new code. -/
def branchTo (conj : Bool) (b : Reg) (exit : Label) : Emit Unit := do
  let next ← Emit.freshLabel
  Emit.endBlock (if conj then .branch b next exit else .branch b exit next) next

instance (conj : Bool) (b : Reg) (exit : Label) : Emit.Grows (branchTo conj b exit) := by
  unfold branchTo
  infer_instance

theorem leadsBy_branchTo {conj : Bool} {b : Reg} (hb : Declares final.types b .truth) :
    LeadsBy exit final strict d φ (branchTo conj b exit d).2 := by
  intro marked P hstrict hsound hexit hlive _
  have hnew : extendFrom d.nextLabel marked (marked d.label) ⟨d.nextLabel⟩ ↔ marked d.label :=
    extendFrom_new (Nat.le_refl _)
  have hold : extendFrom d.nextLabel marked (marked d.label) exit ↔ marked exit :=
    extendFrom_old hexit
  refine ⟨extendFrom d.nextLabel marked (marked d.label),
    fun h => extendFrom_all (hstrict h) (hstrict h _), fun _ => extendFrom_old, hsound.next ?_,
    hnew.mp⟩
  have hbelow : exit.index < d.nextLabel + 1 := Nat.lt_succ_of_lt hexit
  cases conj
  all_goals
    refine ⟨hb.lt_size, ?_, ?_, fun hl => ?_⟩
    · rintro t (_ | ⟨_, _ | ⟨_, ⟨⟩⟩⟩)
      · first | exact hbelow | exact Nat.lt_succ_self _
      · first | exact hbelow | exact Nat.lt_succ_self _
    · rintro _ _ _ _ ⟨⟩
      exact hb
    · simp [Exit.targets, hnew.mpr hl, hold.mpr (hlive hl)]

end

/-- What lowering with ways to a label does from a draft on. -/
def Lower.SpecBy (exit : Label) (m : Lower Unit) (d : Draft) (κ : Prop) (φ : Prop → Prop) : Prop :=
  ∃ d', m.run d = (.ok (), d') ∧ d.Below d' ∧
    ∀ final strict, (strict → κ) → d'.Within final → LeadsBy exit final strict d (φ strict) d'

theorem Lower.Spec.bindBy {α : Type} {exit : Label} {m : Lower α} {f : α → Lower Unit} {d : Draft}
    {κ : Prop} {φ ψ : Prop → Prop} {Q : Array Ty → α → Prop} (hm : m.Spec d κ φ ψ Q)
    (hf : ∀ a d', d.Below d' → Q d'.types a → Lower.SpecBy exit (f a) d' κ ψ) :
    Lower.SpecBy exit (m >>= f) d κ φ := by
  obtain ⟨a, d₁, hrun, hle, hQ, hleads⟩ := hm
  obtain ⟨d₂, hrun', hle', hleads'⟩ := hf a d₁ hle hQ
  refine ⟨d₂, by rw [Lower.run_bind hrun, hrun'], hle.trans hle', fun final strict hκ hw => ?_⟩
  exact (hleads final strict hκ (hle' _ hw)).trans_leadsBy (hleads' final strict hκ hw)
    hle.nextLabel_le

section

variable {h : Heap} {d : Draft} {head : NodeHead} {inputs : List Node}

theorem allFit_iff : Node.allFit h inputs = true ↔ ∀ input ∈ inputs, input.fits h = true := by
  induction inputs with
  | nil => simp [Node.allFit]
  | cons input inputs ih => simp [Node.allFit, ih]

/-- The code of inputs that decide one after the other. -/
theorem lowerChoices_spec (hinputs : ∀ input ∈ inputs, input.Lowers h) (conj : Bool) {result : Reg}
    (hresult : Declares d.types result .truth) (exit : Label) :
    Lower.SpecBy exit (lowerChoices h head conj result exit inputs) d
      (∀ input ∈ inputs, input.fits h = true) fun _ => True := by
  -- on the inputs: every block but the last ends with a jump to the exit or on to the next one
  induction inputs generalizing d with
  | nil => exact ⟨d, rfl, .refl, fun _ _ _ _ => .refl⟩
  | cons input inputs ih =>
    rw [List.forall_mem_cons] at hinputs
    simp only [List.forall_mem_cons]
    rw [lowerChoices]
    refine ((hinputs.1 .datumOrTruth d).mono And.left (fun _ _ h => h) fun _ _ h => h).bindBy
      fun raw d₁ hle₁ hraw => ?_
    refine (Lower.Spec.lift (Emit.cast_spec hraw)).bindBy fun value d₂ hle₂ hvalue => ?_
    have hcondition : ∀ φ, (Emit.condition head.name value).Spec d₂ φ φ
        fun types b => Declares types b .truth := fun φ =>
      .of_emits fun s _ hs => s.emits_condition (by rw [hs.known]; exact hvalue.lt_size)
        (hs.is hvalue) (by simp only [Request.castTy]; split <;> simp)
    refine (Lower.Spec.lift (hcondition _)).bindBy fun b d₃ hle₃ hb => ?_
    have hresult' : Declares d₃.types result .truth :=
      hresult.mono (hle₁.trans (hle₂.trans hle₃)).types
    have hmove : ∀ φ, (Emit.move result b).Spec d₃ φ φ fun _ _ => True := fun φ =>
      .of_emits fun s _ hs => s.emits_move (hs.is hresult') (hs.is hb).reads
    refine (Lower.Spec.lift (hmove _)).bindBy fun _ d₄ hle₄ _ => ?_
    cases inputs with
    | nil => exact ⟨d₄, rfl, .refl, fun _ _ _ _ => .refl⟩
    | cons input' inputs =>
      have hb' := hb.mono hle₄.types
      have hle₅ : d₄.Below (branchTo conj b exit d₄).2 := .of_emit _
      obtain ⟨d₅, hrun, hle, hleads⟩ :=
        ih hinputs.2 (hresult'.mono (hle₄.trans hle₅).types)
      refine ⟨d₅, hrun, hle₅.trans hle, fun final strict hκ hw => ?_⟩
      refine (leadsBy_branchTo (hb'.mono (hle₅.trans hle _ hw).types)).trans
        (hleads final strict (fun hs => (hκ hs).2) hw) hle₅.nextLabel_le

/-- The code of `AND` and `OR`: the exit is opened last, and lives as the start does. -/
theorem emitChoice_spec {κ : Prop} (conj noInputs : Bool) {inputs : Reg → Label → Lower Unit}
    (hinputs : ∀ result exit d, Declares d.types result .truth →
      Lower.SpecBy exit (inputs result exit) d κ fun _ => True) :
    Lower.Spec (emitChoice conj noInputs inputs) d κ (fun _ => True) (fun _ => True)
      fun types r => Declares types r .truth := by
  have hresult : (Emit.freshReg .truth).Spec d (fun _ => True) (fun _ => True)
      fun types r => Declares types r .truth := .of_emits fun s _ _ => s.emits_freshReg .truth
  unfold emitChoice
  refine (Lower.Spec.lift hresult).bind fun result d₁ _ hresult => ?_
  have hinitial : (Emit.truth conj).Spec d₁ (fun _ => True) (fun _ => True)
      fun types r => Declares types r .truth := .of_emits fun s _ _ => s.emits_truth conj
  refine (Lower.Spec.lift hinitial).bind fun initial d₂ hle₂ hinitial => ?_
  have hmove : (Emit.move result initial).Spec d₂ (fun _ => True) (fun _ => True) fun _ _ => True :=
    .of_emits fun s _ hs => s.emits_move (hs.is (hresult.mono hle₂.types)) (hs.is hinitial).reads
  refine (Lower.Spec.lift hmove).bind fun _ d₃ hle₃ _ => ?_
  have hresult₃ := hresult.mono (hle₂.trans hle₃).types
  cases noInputs with
  | true => exact .pure hresult₃ fun _ _ _ => trivial
  | false =>
    have hle₄ : d₃.Below (Emit.freshLabel d₃).2 := .of_emit _
    obtain ⟨d₅, hrun, hle₅, hleads⟩ := hinputs result ⟨d₃.nextLabel⟩ _ (hresult₃.mono hle₄.types)
    have hle₆ : d₅.Below (Emit.endBlock (.jump ⟨d₃.nextLabel⟩) ⟨d₃.nextLabel⟩ d₅).2 := .of_emit _
    refine ⟨result, _, Lower.run_bind (m := liftM Emit.freshLabel) rfl |>.trans
      (Lower.run_bind hrun), hle₄.trans (hle₅.trans hle₆),
      hresult₃.mono (hle₄.trans (hle₅.trans hle₆)).types, ?_⟩
    intro final strict hκ hw marked P hstrict hsound _
    -- the exit is marked as the start is: every jump to it comes from code that is as live
    let marked₄ := extendFrom d₃.nextLabel marked (marked d₃.label)
    have hnew : marked₄ ⟨d₃.nextLabel⟩ ↔ marked d₃.label := extendFrom_new (Nat.le_refl _)
    have hopen : marked₄ d₃.label ↔ marked d₃.label := extendFrom_old (hsound.label_lt (by simp))
    obtain ⟨marked₅, hstrict₅, hagree, hsound₅, hlive⟩ := hleads final strict hκ (hle₆ _ hw)
      marked₄ (⟨d₃.nextLabel⟩ :: P) (fun h => extendFrom_all (hstrict h) (hstrict h _))
      (hsound.congr (Nat.le_succ _) (Nat.le_refl _) fun _ => extendFrom_old).pend
      (Nat.lt_succ_self _) (fun hl => hnew.mpr (hopen.mp hl)) fun _ => trivial
    have hexit : marked₅ ⟨d₃.nextLabel⟩ ↔ marked d₃.label :=
      (hagree ⟨d₃.nextLabel⟩ (Nat.lt_succ_self _)).trans hnew
    refine ⟨marked₅, hstrict₅, fun l hl => ?_, hsound₅.close [] ?_, hexit.mp, fun _ => trivial⟩
    · exact (hagree l (Nat.lt_succ_of_lt hl)).trans (extendFrom_old hl)
    · refine ⟨trivial, ?_, by simp, fun hl => ?_⟩
      · simpa [Exit.targets, Emit.freshLabel] using Nat.lt_of_succ_le hle₅.nextLabel_le
      · simpa [Exit.targets] using hexit.mpr (hopen.mp (hlive hl))

end

/-! ### Ways out -/

section

variable {h : Heap} {d : Draft} {head : NodeHead} {inputs : List Node}

/-- What lowering a node must do, also as a tail call. -/
def Node.LowersOut (h : Heap) (node : Node) : Prop :=
  ∃ callee args, node = .call callee args ∧ node.Lowers h ∧
    (callee.generator = .execProcedure → ∀ arg ∈ args, arg.Lowers h)

/-- A token with the node itself, which is returned. -/
private theorem leave_spec {κ : Prop} {φ : Prop → Prop} {self value : Reg}
    (hself : Declares d.types self .datum) (hvalue : Declares d.types value .datum) :
    Lower.Spec (liftM (Emit.leaveWith head.ref .returnToken [self, value])) d κ φ
      (fun strict => strict) fun types r => Declares types r .datum :=
  .lift (leaveWith_spec .returnToken (fun _ _ hs => Scope.passes_two (hs.is hself).reads
    (hs.is hvalue).reads ⟨rfl, rfl, trivial⟩) rfl)

/-- The code of `STOP`, `OUTPUT` and the like returns. -/
theorem lowerExit_spec {request : Request}
    (hdatum : ∀ produced ty, request.castTy produced ty = .datum)
    (hinputs : ∀ input ∈ inputs, input.LowersOut h) :
    Lower.Spec (lowerExit h head request inputs) d (Node.exitFits h inputs = true) (fun _ => True)
      (fun strict => strict) fun types r => Declares types r .datum := by
  cases inputs with
  | nil =>
    rw [lowerExit]
    refine (Lower.Spec.lift (const_spec head.ref)).bind fun self d₁ hle₁ hself => ?_
    refine (Lower.Spec.lift (const_spec Ref.nothing)).bind fun value d₂ hle₂ hvalue => ?_
    exact leave_spec (hself.mono hle₂.types) hvalue
  | cons input inputs =>
    obtain ⟨callee, args, rfl, hlowers, hargs⟩ := hinputs input List.mem_cons_self
    rw [lowerExit, Node.exitFits]
    refine (Lower.Spec.lift (const_spec head.ref)).bind fun self d₁ hle₁ hself => ?_
    -- of a call in tail position only the inputs are evaluated here; all else is run
    by_cases hcall : callee.generator = .execProcedure
    · rw [if_pos hcall, if_pos hcall]
      refine ((lowerInputs_spec (hargs hcall) (List.replicate args.length .datum)).mono
        (fun hfit p hp => allFit_iff.mp hfit p.1 (List.of_mem_zip hp).1) (fun _ _ h => h)
        fun _ _ h => h).bind fun raw d₂ hle₂ hraw => ?_
      refine (Lower.Spec.lift (castInputs_spec hraw)).bind fun rs d₃ hle₃ hrs => ?_
      refine (Lower.Spec.lift (const_spec callee.ref)).bind fun target d₄ hle₄ htarget => ?_
      refine .lift (leaveWith_spec .continuationToken (fun s _ hs => ?_) rfl)
      refine Scope.passes_rest [self, target] rfl rfl (.cons (hs.is (hself.mono
        (hle₂.trans (hle₃.trans hle₄)).types)).reads (.cons (hs.is htarget).reads .nil)) ?_
      intro r hr
      obtain ⟨ty, hmem, hdeclared⟩ := exists_mem_of_forall₂ hrs hr
      obtain ⟨p, hp, rfl⟩ := List.mem_map.mp hmem
      rw [List.eq_of_mem_replicate (List.of_mem_zip hp).2] at hdeclared
      exact (hs.is (hdeclared.mono hle₄.types)).reads
    · rw [if_neg hcall, if_neg hcall]
      refine (hlowers request d₁).bind fun raw d₂ hle₂ hraw => ?_
      refine (Lower.Spec.lift (Emit.cast_spec hraw)).bind fun value d₃ hle₃ hvalue => ?_
      rw [hdatum] at hvalue
      have hself₃ := hself.mono (hle₂.trans hle₃).types
      split
      · refine (Lower.Spec.lift (const_spec Ref.nothing)).bind fun value d₄ hle₄ hvalue => ?_
        exact leave_spec (hself₃.mono hle₄.types) hvalue
      · exact leave_spec hself₃ hvalue

end

/-! ### All nodes -/

section

variable {h : Heap}

theorem lowerNode_choice {head : NodeHead} {inputs : List Node} (conj : Bool)
    (hfault : arityFault? h head inputs.length = none)
    (hgenerator : head.generator = if conj then .conjunction else .disjunction)
    (request : Request) :
    lowerNode h (.call head inputs) request = (emitChoice conj inputs.isEmpty fun result exit =>
      lowerChoices h head conj result exit inputs) ∧
    (Node.call head inputs).fits h = Node.allFit h inputs := by
  rw [lowerNode.eq_def, Node.fits]
  dsimp only
  rw [hfault]
  cases conj <;> simp [hgenerator]

theorem rawTy_choice {head : NodeHead} {inputs : List Node} (conj : Bool)
    (hfault : arityFault? h head inputs.length = none)
    (hgenerator : head.generator = if conj then .conjunction else .disjunction)
    (request : Request) : (Node.call head inputs).rawTy h request = .truth := by
  rw [Node.rawTy.eq_def]
  dsimp only
  rw [hfault]
  cases conj <;> simp [hgenerator, Generator.ty]

private theorem lowers_choice {head : NodeHead} {inputs : List Node} (conj : Bool)
    (hfault : arityFault? h head inputs.length = none)
    (hgenerator : head.generator = if conj then .conjunction else .disjunction)
    (hinputs : ∀ input ∈ inputs, input.Lowers h) : (Node.call head inputs).Lowers h := by
  intro request d
  obtain ⟨hrun, hfits⟩ := lowerNode_choice conj hfault hgenerator request
  rw [hrun, rawTy_choice conj hfault hgenerator, hfits, allFit_iff]
  refine (emitChoice_spec conj inputs.isEmpty fun result exit d hresult =>
    lowerChoices_spec hinputs conj hresult exit).mono (fun h => h) (fun _ _ h => h) ?_
  exact fun _ _ _ => .inr (by simp [Request.delivers])

/-- What a way out asks of its input. -/
def Generator.exitRequest? : Generator → Option Request
  | stop => some .nothing
  | output => some .datum
  | maybeOutput => some .datumOrNothing
  | _ => none

theorem lowerNode_exit {head : NodeHead} {inputs : List Node} {asked : Request}
    (hfault : arityFault? h head inputs.length = none)
    (hgenerator : head.generator.exitRequest? = some asked) (request : Request) :
    lowerNode h (.call head inputs) request = lowerExit h head asked inputs ∧
    (Node.call head inputs).fits h = Node.exitFits h inputs := by
  rw [lowerNode.eq_def, Node.fits]
  dsimp only
  rw [hfault]
  cases hg : head.generator <;> simp [hg, Generator.exitRequest?] at hgenerator ⊢ <;>
    rw [hgenerator]

private theorem lowers_exit {head : NodeHead} {inputs : List Node} {asked : Request}
    (hfault : arityFault? h head inputs.length = none)
    (hgenerator : head.generator.exitRequest? = some asked)
    (hinputs : ∀ input ∈ inputs, input.LowersOut h) : (Node.call head inputs).Lowers h := by
  intro request d
  have hty : (Node.call head inputs).rawTy h request = .datum := by
    rw [Node.rawTy.eq_def]
    dsimp only
    rw [hfault]
    cases hg : head.generator <;> simp [hg, Generator.exitRequest?] at hgenerator ⊢ <;> rfl
  have hdatum : ∀ produced ty, asked.castTy produced ty = .datum := by
    cases hg : head.generator <;> simp [hg, Generator.exitRequest?] at hgenerator <;>
      subst hgenerator <;> exact fun _ _ => rfl
  obtain ⟨hrun, hfits⟩ := lowerNode_exit hfault hgenerator request
  rw [hrun, hty, hfits]
  exact (lowerExit_spec hdatum hinputs).mono (fun h => h) (fun _ _ h => h) fun _ _ h => .inl h

/-- Generators with inputs lowered in their own way. -/
theorem Generator.isSpecial_cases {g : Generator} (hspecial : g.isSpecial = true) :
    g = .literal ∨ g = .valueOf ∨ g = .conjunction ∨ g = .disjunction ∨
      ∃ asked, g.exitRequest? = some asked := by
  cases g with
  | literal | valueOf | conjunction | disjunction | stop | output | maybeOutput =>
    simp [exitRequest?]
  | _ => cases hspecial

theorem Node.LowersOut.lowers {node : Node} (hnode : node.LowersOut h) : node.Lowers h := by
  obtain ⟨_, _, _, hlowers, _⟩ := hnode
  exact hlowers

/-- **Primitives**, with any number of inputs. -/
private theorem lowers_primitive {head : NodeHead} {inputs : List Node} {name : String}
    {row : Primitive} (hname : h.word? head.name = some (.text name))
    (hrow : Primitive.find? name = some row) (hgenerator : head.generator = row.generator)
    (hreturns : head.returns = row.returns) (hinputs : ∀ input ∈ inputs, input.LowersOut h) :
    (Node.call head inputs).Lowers h := by
  have hproper := (Primitive.find?_eq_some hrow).1
  cases hfault : arityFault? h head inputs.length with
  | some helper => exact lowers_of_fault hfault
  | none =>
    by_cases hspecial : head.generator.isSpecial = true
    · rcases Generator.isSpecial_cases hspecial with hg | hg | hg | hg | ⟨asked, hasked⟩
      · exact absurd (hgenerator ▸ hg) hproper.literal
      · exact absurd (hgenerator ▸ hg) hproper.valueOf
      · exact lowers_choice true hfault hg fun input hinput => (hinputs input hinput).lowers
      · exact lowers_choice false hfault hg fun input hinput => (hinputs input hinput).lowers
      · exact lowers_exit hfault hasked hinputs
    · obtain ⟨hneeds, hturtle, hdelivers⟩ :=
        uses_of_arityFault? hname hrow hgenerator hreturns hfault
      exact lowers_generic hfault (by simpa using hspecial) hneeds hturtle hdelivers
        fun input hinput => (hinputs input hinput).lowers

/-- What built nodes lower to, also as a tail call. -/
theorem Node.Built.lowersOut {node : Node} (hbuilt : node.Built h) : node.LowersOut h := by
  induction hbuilt with
  | @primitive head inputs name row hname hrow hgenerator hreturns _ ih =>
    refine ⟨head, inputs, rfl, lowers_primitive hname hrow hgenerator hreturns ih, fun hcall => ?_⟩
    exact absurd (hgenerator ▸ hcall) (Primitive.find?_eq_some hrow).1.procedure
  | @literal head value hgenerator hreturns =>
    refine ⟨head, [value], rfl, lowers_literal ?_ hgenerator hreturns value, by simp [hgenerator]⟩
    simp [arityFault?, hgenerator]
  | @valueOf head subject hgenerator hreturns =>
    refine ⟨head, [.datum subject], rfl, lowers_valueOf ?_ hgenerator hreturns _,
      by simp [hgenerator]⟩
    simp [arityFault?, hgenerator]
  | @procedure head inputs hgenerator hreturns _ ih =>
    have hlowers : ∀ input ∈ inputs, input.Lowers h :=
      fun input hinput => (ih input hinput).lowers
    refine ⟨head, inputs, rfl, lowers_generic ?_ ?_ ?_ ?_ ?_ hlowers, fun _ => hlowers⟩
    · simp [arityFault?, hgenerator]
    · simp [hgenerator, Generator.isSpecial]
    · simp [hgenerator, Generator.needs]
    · simp [hgenerator]
    · simp [hgenerator, hreturns, Generator.ty, Request.delivers]

/-- **Lowering a built node** succeeds with code as `Node.Lowers` says. -/
theorem Node.Built.lowers {node : Node} (hbuilt : node.Built h) : node.Lowers h :=
  hbuilt.lowersOut.lowers

end

end LogoEngine
