import LogoEngine.Proofs.Lower.Built

/-!
# Code of generators

The code of a node, given the registers of its inputs. Most generators go on: handed registers that
are what the generator asked for, their code delivers a register of the generator's type
(`exists_emitNode`). The others return, and leave dead code and a register with data
(`exists_emitNode_of_leaves`).

A generator reads one register, two, or all of them; `Lower.Delivers` is what each of them shows
about its code, with one lemma for each of these shapes.
-/

namespace LogoEngine

/-- A register is what a consumer asked for, as far as the code is alive. -/
def Scope.Supplies (s : Scope) (r : Reg) : Request → Prop
  | .real => s.Reads r .real
  | .truth => s.Reads r .truth
  | .datumOrTruth => r.index < s.known ∧ ∃ ty, s.Is r ty ∧ ty ≠ .real
  | .nothing | .datum | .datumOrNothing => s.Reads r .datum

theorem Scope.supplies_replicate {s : Scope} {rs : List Reg} {n : Nat} {request : Request}
    (h : List.Forall₂ s.Supplies rs (List.replicate n request)) :
    ∀ r ∈ rs, s.Supplies r request := by
  induction n generalizing rs with
  | zero => cases h; simp
  | succ n ih =>
    rw [List.replicate_succ] at h
    cases h with
    | cons hr hrs => simpa using ⟨hr, ih hrs⟩

/-- Whether the code of a generator returns and leaves dead code behind. -/
def Generator.leaves : Generator → Bool
  | infixError | goto | throwing | resume | bye => true
  | _ => false

/-- Generators that leave deal with data only. -/
theorem Generator.datum_of_leaves {g : Generator} (h : g.leaves = true) (n : Nat) :
    g.ty = .datum ∧ ∀ request ∈ g.requests n, request = .datum := by
  cases g with
  | infixError | goto | throwing | resume | bye => exact ⟨rfl, by simp [requests]⟩
  | _ => cases h

/-- Whether the inputs of a generator are lowered in its own way. -/
def Generator.isSpecial : Generator → Bool
  | literal | valueOf | conjunction | disjunction | stop | output | maybeOutput => true
  | _ => false

private theorem forall₂_replicate {R : Reg → Ty → Prop} {rs : List Reg} {n : Nat} {ty : Ty}
    (hlength : rs.length = n) (h : ∀ r ∈ rs, R r ty) :
    List.Forall₂ R rs (List.replicate n ty) := by
  subst hlength
  induction rs with
  | nil => exact .nil
  | cons r rs ih => exact .cons (h r (by simp)) (ih fun r' hr' => h r' (by simp [hr']))

private theorem exists_two {rs : List Reg} (h : 2 ≤ rs.length) :
    ∃ a b rest, rs = a :: b :: rest := by
  rcases rs with - | ⟨a, - | ⟨b, rest⟩⟩
  · simp at h
  · simp at h
  · exact ⟨a, b, rest, rfl⟩

private theorem exists_three {rs : List Reg} (h : 3 ≤ rs.length) :
    ∃ a b c rest, rs = a :: b :: c :: rest := by
  obtain ⟨a, b, rest, rfl⟩ := exists_two (Nat.le_of_succ_le h)
  obtain ⟨c, rest, rfl⟩ := List.exists_cons_of_length_pos
    (show 0 < rest.length by simpa [Nat.succ_le_iff] using h)
  exact ⟨a, b, c, rest, rfl⟩

/-- Arguments of one type are what a helper accepts that asks for as many. -/
private theorem Signature.acceptsFrom_replicate (ty : Ty) (n : Nat) :
    Signature.acceptsFrom none (List.replicate n ty) (List.replicate n ty) := by
  induction n with
  | zero => trivial
  | succ n ih => exact ⟨rfl, ih⟩

/-! ### Shapes of code -/

/-- Code that goes on: it delivers a register of a type, if the registers of the inputs are what
was asked for. -/
def Lower.Delivers (code : Lower Reg) (rs : List Reg) (requests : List Request) (ty : Ty) : Prop :=
  ∃ m : Emit Reg, code = liftM m ∧ m.Grows ∧
    ∀ s : Scope, List.Forall₂ s.Supplies rs requests → s.Emits m (s.Is · ty)

namespace Lower.Delivers

variable {code : List Reg → Lower Reg} {rs : List Reg} {n : Nat} {request : Request} {ty : Ty}

/-- Code that reads no input. -/
theorem none {requests : List Request} (m : Emit Reg) [hm : m.Grows] (hcode : code rs = liftM m)
    (hemits : ∀ s : Scope, s.Emits m (s.Is · ty)) : Delivers (code rs) rs requests ty :=
  ⟨m, hcode, hm, fun s _ => hemits s⟩

/-- Code that reads the first input. -/
theorem one {requests : List Request} (m : Reg → Emit Reg) [hm : ∀ a, (m a).Grows]
    (hlength : 1 ≤ rs.length) (hcode : ∀ a rest, code (a :: rest) = liftM (m a))
    (hemits : ∀ (s : Scope) a, s.Supplies a request → s.Emits (m a) (s.Is · ty)) :
    Delivers (code rs) rs (request :: requests) ty := by
  obtain ⟨a, rest, rfl⟩ := List.exists_cons_of_length_pos hlength
  refine ⟨m a, hcode a rest, hm a, fun s hs => ?_⟩
  exact hemits s a (List.forall₂_cons.mp hs).1

/-- Code that reads the first two inputs. -/
theorem two (m : Reg → Reg → Emit Reg) [hm : ∀ a b, (m a b).Grows]
    (hlength : 2 ≤ rs.length) (hcode : ∀ a b rest, code (a :: b :: rest) = liftM (m a b))
    (hemits : ∀ (s : Scope) a b, s.Supplies a request → s.Supplies b request →
      s.Emits (m a b) (s.Is · ty)) :
    Delivers (code rs) rs (List.replicate n request) ty := by
  obtain ⟨a, b, rest, rfl⟩ := exists_two hlength
  refine ⟨m a b, hcode a b rest, hm a b, fun s hs => ?_⟩
  have hr := Scope.supplies_replicate hs
  exact hemits s a b (hr a (by simp)) (hr b (by simp))

/-- Code that reads one input or, if there are more, the first two. -/
theorem oneOrTwo (m₁ : Reg → Emit Reg) (m₂ : Reg → Reg → Emit Reg) [hm₁ : ∀ a, (m₁ a).Grows]
    [∀ a b, (m₂ a b).Grows] (hlength : 1 ≤ rs.length) (hcode₁ : ∀ a, code [a] = liftM (m₁ a))
    (hcode₂ : ∀ a b rest, code (a :: b :: rest) = liftM (m₂ a b))
    (hemits₁ : ∀ (s : Scope) a, s.Supplies a request → s.Emits (m₁ a) (s.Is · ty))
    (hemits₂ : ∀ (s : Scope) a b, s.Supplies a request → s.Supplies b request →
      s.Emits (m₂ a b) (s.Is · ty)) :
    Delivers (code rs) rs (List.replicate n request) ty := by
  rcases rs with - | ⟨a, - | ⟨b, rest⟩⟩
  · cases hlength
  · refine ⟨m₁ a, hcode₁ a, hm₁ a, fun s hs => ?_⟩
    exact hemits₁ s a (Scope.supplies_replicate hs a (by simp))
  · exact two m₂ (by simp) hcode₂ hemits₂

/-- Code that reads all inputs. -/
theorem all (m : List Reg → Emit Reg) [hm : (m rs).Grows] (hcode : code rs = liftM (m rs))
    (hemits : ∀ s : Scope, (∀ r ∈ rs, s.Supplies r request) → s.Emits (m rs) (s.Is · ty)) :
    Delivers (code rs) rs (List.replicate n request) ty :=
  ⟨m rs, hcode, hm, fun s hs => hemits s (Scope.supplies_replicate hs)⟩

end Lower.Delivers

/-! ### Code that goes on -/

/-- **Generators whose code goes on** deliver a register of their type, given what they asked
for. -/
theorem exists_emitNode (h : Heap) {head : NodeHead} {rs : List Reg} {n : Nat}
    (hlength : rs.length = (head.generator.requests n).length)
    (hneeds : head.generator.needs ≤ n)
    (hturtle : ∀ op, head.generator = .turtle op → n = op.inputs)
    (hspecial : head.generator.isSpecial = false) (hleaves : head.generator.leaves = false)
    (hfolds : head.generator.folds = false) :
    Lower.Delivers (emitNode h head rs) rs (head.generator.requests n) head.generator.ty := by
  have hmin : head.generator.needs ≤ rs.length :=
    hlength ▸ Generator.needs_le_length_requests hneeds
  obtain ⟨node, id, who, g, returns⟩ := head
  dsimp only at hlength hneeds hturtle hspecial hleaves hfolds hmin ⊢
  cases g with
  | literal | valueOf | conjunction | disjunction | stop | output | maybeOutput => cases hspecial
  | infixError | goto | throwing | resume | bye => cases hleaves
  | sum | product => cases hfolds
  | execProcedure =>
    exact .all (Emit.procedureCall node) rfl fun s hs => s.emits_procedureCall hs
  | noOp | tag => exact .none (Emit.const node) rfl fun s => s.emits_const node
  | difference =>
    exact .two (Emit.arith .sub) hmin (fun _ _ _ => rfl) fun s _ _ => s.emits_arith .sub
  | minus => exact .one Emit.negate hmin (fun _ _ => rfl) fun s _ => s.emits_negate
  | quotient =>
    exact .oneOrTwo (Emit.reciprocal who) (Emit.quotient who) hmin (fun _ => rfl)
      (fun _ _ _ => rfl) (fun s _ => s.emits_reciprocal) fun s _ _ => s.emits_quotient
  | remainder =>
    exact .two (Emit.remainder .remainder who) hmin (fun _ _ _ => rfl)
      fun s _ _ => s.emits_remainder rfl
  | modulo =>
    exact .two (Emit.remainder .modulo who) hmin (fun _ _ _ => rfl)
      fun s _ _ => s.emits_remainder rfl
  | sqrt => exact .one (Emit.squareRoot who) hmin (fun _ _ => rfl) fun s _ => s.emits_squareRoot
  | power =>
    exact .two (Emit.power who) hmin (fun _ _ _ => rfl) fun s _ _ => s.emits_power
  | exp =>
    exact .one (fun a => Emit.call (.math .exp) [a]) hmin (fun _ _ => rfl)
      fun s _ => s.emits_math rfl
  | log10 =>
    exact .one (Emit.logarithm .log10 who) hmin (fun _ _ => rfl) fun s _ => s.emits_logarithm rfl
  | ln =>
    exact .one (Emit.logarithm .ln who) hmin (fun _ _ => rfl) fun s _ => s.emits_logarithm rfl
  | integerPart =>
    exact .one (fun a => Emit.call (.math .trunc) [a]) hmin (fun _ _ => rfl)
      fun s _ => s.emits_math rfl
  | round =>
    exact .one (fun a => Emit.call (.math .round) [a]) hmin (fun _ _ => rfl)
      fun s _ => s.emits_math rfl
  | sin =>
    exact .one (Emit.trigonometric .sin true) hmin (fun _ _ => rfl)
      fun s _ => s.emits_trigonometric rfl true
  | cos =>
    exact .one (Emit.trigonometric .cos true) hmin (fun _ _ => rfl)
      fun s _ => s.emits_trigonometric rfl true
  | radSin =>
    exact .one (Emit.trigonometric .sin false) hmin (fun _ _ => rfl)
      fun s _ => s.emits_trigonometric rfl false
  | radCos =>
    exact .one (Emit.trigonometric .cos false) hmin (fun _ _ => rfl)
      fun s _ => s.emits_trigonometric rfl false
  | arctan =>
    exact .oneOrTwo (Emit.arctangent true) (Emit.arctangentOf true) hmin (fun _ => rfl)
      (fun _ _ _ => rfl) (fun s _ => s.emits_arctangent true)
      fun s _ _ => s.emits_arctangentOf true
  | radArctan =>
    exact .oneOrTwo (Emit.arctangent false) (Emit.arctangentOf false) hmin (fun _ => rfl)
      (fun _ _ _ => rfl) (fun s _ => s.emits_arctangent false)
      fun s _ _ => s.emits_arctangentOf false
  | bitAnd =>
    exact .all (Emit.bitwise .bitAnd (-1.0) who) rfl fun s hs => s.emits_bitwise rfl (-1.0) hs
  | bitOr => exact .all (Emit.bitwise .bitOr 0.0 who) rfl fun s hs => s.emits_bitwise rfl 0.0 hs
  | bitXor => exact .all (Emit.bitwise .bitXor 0.0 who) rfl fun s hs => s.emits_bitwise rfl 0.0 hs
  | bitNot => exact .one (Emit.complement who) hmin (fun _ _ => rfl) fun s _ => s.emits_complement
  | ashift =>
    exact .two (Emit.shift .ashift who) hmin (fun _ _ _ => rfl) fun s _ _ => s.emits_shift rfl
  | lshift =>
    exact .two (Emit.shift .lshift who) hmin (fun _ _ _ => rfl) fun s _ _ => s.emits_shift rfl
  | random =>
    exact .oneOrTwo (Emit.random who) (Emit.randomRange who) hmin (fun _ => rfl)
      (fun _ _ _ => rfl) (fun s _ => s.emits_random) fun s _ _ => s.emits_randomRange
  | rerandom => exact .all (Emit.rerandom who node) rfl fun s hs => s.emits_rerandom hs
  | form =>
    obtain ⟨a, b, c, rest, rfl⟩ := exists_three hmin
    exact ⟨Emit.form who a b c, rfl, inferInstance, fun s hs =>
      have hr := Scope.supplies_replicate hs
      s.emits_form (hr a (by simp)) (hr b (by simp)) (hr c (by simp))⟩
  | lessP =>
    exact .two (Emit.compare .lt) hmin (fun _ _ _ => rfl) fun s _ _ => s.emits_compare .lt
  | greaterP =>
    exact .two (Emit.compare .gt) hmin (fun _ _ _ => rfl) fun s _ _ => s.emits_compare .gt
  | lessEqualP =>
    exact .two (Emit.compare .le) hmin (fun _ _ _ => rfl) fun s _ _ => s.emits_compare .le
  | greaterEqualP =>
    exact .two (Emit.compare .ge) hmin (fun _ _ _ => rfl) fun s _ _ => s.emits_compare .ge
  | negation => exact .one Emit.not hmin (fun _ _ => rfl) fun s _ => s.emits_not
  | run => exact .one (Emit.run who) hmin (fun _ _ => rfl) fun s _ => s.emits_run
  | runResult => exact .one (Emit.runResult who) hmin (fun _ _ => rfl) fun s _ => s.emits_runResult
  | repeatTimes =>
    -- the only generator that asks for a number and a list
    obtain ⟨a, b, rest, rfl⟩ := exists_two hmin
    refine ⟨Emit.repetition who node a b, rfl, inferInstance, fun s hs => ?_⟩
    obtain ⟨ha, hs⟩ := List.forall₂_cons.mp hs
    exact s.emits_repetition ha (List.forall₂_cons.mp hs).1
  | forever =>
    exact .one (Emit.forever who node) hmin (fun _ _ => rfl) fun s _ => s.emits_forever
  | repcount =>
    exact .none (Emit.call .repcount []) rfl
      fun s => s.emits_call .repcount (Scope.passes_nil trivial) rfl
  | ifTrueThen | ifElse =>
    obtain ⟨a, b, rest, rfl⟩ := exists_two hmin
    refine ⟨Emit.conditional who node a b rest.head?, rfl, inferInstance, fun s hs => ?_⟩
    obtain ⟨⟨hknown, ty, ha, hty⟩, hs⟩ := List.forall₂_cons.mp hs
    have hr := Scope.supplies_replicate hs
    refine s.emits_conditional hknown ha hty (hr b (by simp)) fun c hc => hr c ?_
    exact List.mem_cons_of_mem _ (List.mem_of_head? hc)
  | test =>
    refine .one (Emit.test who node) hmin (fun _ _ => rfl) fun s a ha => ?_
    obtain ⟨hknown, ty, ha, hty⟩ := ha
    exact s.emits_test hknown ha hty
  | ifTrue =>
    exact .one (Emit.ifTested true who node) hmin (fun _ _ => rfl)
      fun s _ => s.emits_ifTested true
  | ifFalse =>
    exact .one (Emit.ifTested false who node) hmin (fun _ _ => rfl)
      fun s _ => s.emits_ifTested false
  | catching =>
    exact .two (Emit.catching who node) hmin (fun _ _ _ => rfl) fun s _ _ => s.emits_catching
  | lastError =>
    exact .none (Emit.call .errorList []) rfl
      fun s => s.emits_call .errorList (Scope.passes_nil trivial) rfl
  | pause =>
    exact .none (Emit.call .pause []) rfl
      fun s => s.emits_call .pause (Scope.passes_nil trivial) rfl
  | make =>
    exact .two (Emit.assign who node) hmin (fun _ _ _ => rfl) fun s _ _ => s.emits_assign
  | makeLocal =>
    refine .all (Emit.askWithNode .makeLocal node) rfl fun s hs => ?_
    exact s.emits_askWithNode .makeLocal (fun self hself =>
      Scope.passes_rest [self] rfl rfl (.cons hself.reads .nil) hs) rfl
  | data op =>
    refine .all (Emit.askWithNode (.data op) node) rfl fun s hs => ?_
    exact s.emits_askWithNode (.data op) (fun self hself =>
      Scope.passes_rest [self] rfl rfl (.cons hself.reads .nil) hs) rfl
  | printing => exact .all (Emit.write .printing node) rfl fun s hs => s.emits_write .printing hs
  | showing => exact .all (Emit.write .showing node) rfl fun s hs => s.emits_write .showing hs
  | typing => exact .all (Emit.write .typing node) rfl fun s hs => s.emits_write .typing hs
  | turtle op =>
    refine .all (Emit.ask (.turtle op)) rfl fun s hs => ?_
    refine s.emits_ask (.turtle op) ⟨List.replicate n .real, ?_, ?_⟩ rfl
    · exact forall₂_replicate (hlength.trans (by simp [Generator.requests])) hs
    · rw [hturtle op rfl]
      exact Signature.acceptsFrom_replicate .real op.inputs
  | setPos =>
    refine .one (fun a => Emit.askWithNode .setPos node [a]) hmin (fun _ _ => rfl) fun s a ha => ?_
    exact s.emits_askWithNode .setPos (fun self hself =>
      Scope.passes_two hself.reads ha ⟨rfl, rfl, trivial⟩) rfl
  | pos =>
    exact .none (Emit.call .pos []) rfl fun s => s.emits_call .pos (Scope.passes_nil trivial) rfl
  | heading =>
    exact .none (Emit.call .heading []) rfl
      fun s => s.emits_call .heading (Scope.passes_nil trivial) rfl
  | towards =>
    refine .one (fun a => Emit.askWithNode .towards node [a]) hmin (fun _ _ => rfl) fun s a ha => ?_
    exact s.emits_askWithNode .towards (fun self hself =>
      Scope.passes_two hself.reads ha ⟨rfl, rfl, trivial⟩) rfl
  | penDownP =>
    exact .none (Emit.call .penDownP []) rfl
      fun s => s.emits_call .penDownP (Scope.passes_nil trivial) rfl
  | shownP =>
    exact .none (Emit.call .shownP []) rfl
      fun s => s.emits_call .shownP (Scope.passes_nil trivial) rfl

/-! ### Code that leaves -/

section

variable {d : Draft} {φ : Prop → Prop} {node who : Ref}

theorem const_spec (r : Ref) :
    (Emit.const r).Spec d φ φ fun types r => Declares types r .datum :=
  .of_emits fun s _ _ => s.emits_const r

theorem leaveWith_spec (helper : Helper) {args : List Reg}
    (hargs : ∀ (s : Scope) strict, s.From d (φ strict) → s.Passes helper args)
    (hret : helper.signature.ret = some .datum) :
    (Emit.leaveWith node helper args).Spec d φ id fun types r => Declares types r .datum :=
  .call_returnNow helper hargs hret fun _ _ => const_spec node

theorem emitArityFault_spec {head : NodeHead} {helper : Helper}
    (hsignature : helper.signature = ⟨[.datum], none, some .datum⟩) :
    (emitArityFault head helper).Spec d φ id fun types r => Declares types r .datum := by
  refine (const_spec head.name).bind fun name d₁ _ hname => ?_
  refine .call_returnNow helper (fun s _ hs => ?_) (by rw [hsignature]) fun _ _ =>
    const_spec head.ref
  refine Scope.passes_one (hs.is hname).reads ?_
  rw [hsignature]
  exact ⟨rfl, trivial⟩

/-- **Generators whose code returns** leave dead code and a register with data. -/
theorem exists_emitNode_of_leaves (h : Heap) {head : NodeHead} {rs : List Reg}
    (hleaves : head.generator.leaves = true) (hneeds : head.generator.needs ≤ rs.length)
    (hrs : ∀ r ∈ rs, Declares d.types r .datum) :
    ∃ m : Emit Reg, emitNode h head rs = liftM m ∧ m.Grows ∧
      m.Spec d φ id fun types r => Declares types r .datum := by
  obtain ⟨node, id, who, g, returns⟩ := head
  dsimp only at hleaves hneeds ⊢
  -- each of them makes an error or a token, returns it, and ends with a constant in dead code
  cases g with
  | infixError =>
    refine ⟨Emit.infixFault who node, rfl, inferInstance, ?_⟩
    refine (const_spec who).bind fun name d₁ _ hname => ?_
    refine .call_returnNow .errNotEnoughInputs (fun s _ hs => ?_) rfl fun _ _ => const_spec node
    exact Scope.passes_one (hs.is hname).reads ⟨rfl, trivial⟩
  | goto =>
    obtain ⟨a, rest, rfl⟩ := List.exists_cons_of_length_pos hneeds
    refine ⟨Emit.goto node a, rfl, inferInstance, ?_⟩
    refine (const_spec node).bind fun self d₁ hle₁ hself => ?_
    refine leaveWith_spec .gotoToken (fun s _ hs => ?_) rfl
    exact Scope.passes_two (hs.is hself).reads (hs.is ((hrs a (by simp)).mono hle₁)).reads
      ⟨rfl, rfl, trivial⟩
  | throwing =>
    obtain ⟨a, rest, rfl⟩ := List.exists_cons_of_length_pos hneeds
    have ha := hrs a (by simp)
    cases rest with
    | nil =>
      refine ⟨Emit.throwing node a none, rfl, inferInstance, ?_⟩
      refine (const_spec Ref.nothing).bind fun value d₁ hle₁ hvalue => ?_
      refine leaveWith_spec .throwTag (fun s _ hs => ?_) rfl
      exact Scope.passes_two (hs.is (ha.mono hle₁)).reads (hs.is hvalue).reads ⟨rfl, rfl, trivial⟩
    | cons b rest =>
      refine ⟨Emit.throwing node a (some b), rfl, inferInstance, ?_⟩
      refine leaveWith_spec .throwTag (fun s _ hs => ?_) rfl
      exact Scope.passes_two (hs.is ha).reads (hs.is (hrs b (by simp))).reads ⟨rfl, rfl, trivial⟩
  | resume =>
    cases rs with
    | nil =>
      refine ⟨Emit.resume node none, rfl, inferInstance, ?_⟩
      refine (const_spec Ref.nothing).bind fun value d₁ hle₁ hvalue => ?_
      refine leaveWith_spec .continueToken (fun s _ hs => ?_) rfl
      exact Scope.passes_one (hs.is hvalue).reads ⟨rfl, trivial⟩
    | cons a rest =>
      refine ⟨Emit.resume node (some a), rfl, inferInstance, ?_⟩
      refine leaveWith_spec .continueToken (fun s _ hs => ?_) rfl
      exact Scope.passes_one (hs.is (hrs a (by simp))).reads ⟨rfl, trivial⟩
  | bye =>
    exact ⟨Emit.leaveWith node .errSystem [], rfl, inferInstance,
      leaveWith_spec .errSystem (fun _ _ _ => Scope.passes_nil trivial) rfl⟩
  | _ => cases hleaves

end

end LogoEngine
