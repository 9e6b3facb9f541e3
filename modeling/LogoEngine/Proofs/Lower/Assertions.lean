import LogoEngine.Proofs.Code.Linking
import LogoEngine.Proofs.Emit.Assertions
import LogoEngine.Proofs.Lower.Contents

/-!
# Assertions along lowered code

A proof outline for the code of nodes (`Watch.Outline`) says what holds of the registers that nodes
and casts leave, and has one rule for each piece that lowering puts together. Lowering follows the
outline through nodes of any depth, and a whole routine has a valid annotation in which the same
assertion stands between any two statements.

Main statement: `Watch.Outline.sound`.
-/

namespace LogoEngine

/-- Nodes that satisfy a condition at every depth. -/
inductive Node.Each (fits : NodeHead → List Node → Prop) : Node → Prop
  | datum (r : Ref) : Each fits (.datum r)
  | call {head : NodeHead} {inputs : List Node} (hfits : fits head inputs)
      (hinputs : ∀ input ∈ inputs, input.Each fits) : Each fits (.call head inputs)

theorem Node.each_of_forall {fits : NodeHead → List Node → Prop}
    (h : ∀ head inputs, fits head inputs) : ∀ node : Node, node.Each fits
  | .datum r => .datum r
  | .call head inputs => .call (h head inputs) fun input _ => each_of_forall h input

namespace Watch

variable (k : Watch) {α β : Type}

/-- A computation that may fail leads from one assertion to another, if it succeeds. -/
def Lowers (known : Annotation → Prop) (m : Lower α) (d : Draft) (P : Assertion)
    (Q : α → Draft → Assertion) : Prop :=
  ∀ a d', m.run d = (.ok a, d') → k.Between known d d' P fun ann => k.Here ann d' (Q a d')

/-- What is known of the registers of a draft stays known while the draft grows and the evaluator
changes. -/
structure Lasts (F : Draft → Assertion) : Prop where
  below : ∀ {d d' w regs}, d.Below d' → F d w regs → F d' w regs
  follows : ∀ {d w w' regs regs'}, F d w regs → k.follows w w' →
    (∀ r : Reg, r.index < d.types.size → readReg regs' r = readReg regs r) → F d w' regs'

/-- Something is known of what a register holds. -/
def Holds (φ : World → Value → Prop) (r : Reg) : Draft → Assertion :=
  fun d w regs => r.index < d.types.size ∧ φ w (readReg regs r)

/-- Something is known of what a register holds if another one holds a certain truth value. -/
def Tells (φ : World → Value → Prop) (b : Bool) (r c : Reg) : Draft → Assertion :=
  fun d w regs => c.index < d.types.size ∧ r.index < d.types.size ∧
    ((readReg regs c).asTruth = b → φ w (readReg regs r))

/-- Code that, where something is known, keeps every stable assertion and makes something more
known. -/
structure Gives (pre : Draft → Assertion) (m : Lower α) (post : α → Draft → Assertion) : Prop where
  grows : m.Grows
  lowers : ∀ {d P}, k.Stable d.types.size P → (∀ w regs, P w regs → pre d w regs) →
    k.Lowers (fun _ => True) m d P fun a d' w regs => P w regs ∧ post a d' w regs

variable {k} {known : Annotation → Prop} {m : Lower α} {f : α → Lower β} {d : Draft}
  {P : Assertion} {Q : α → Draft → Assertion} {R : β → Draft → Assertion}

/-! ### Rules -/

namespace Lowers

protected theorem pure {a : α} : k.Lowers known (pure a) d P fun _ _ => P := by
  rintro _ _ ⟨⟩
  exact .of_blocks rfl fun _ _ hhere => hhere

protected theorem bind (hm : m.Grows) (hf : ∀ a, (f a).Grows) (h : k.Lowers known m d P Q)
    (hnext : ∀ a d', m.run d = (.ok a, d') → d.Below d' →
      k.Lowers known (f a) d' (Q a d') R) : k.Lowers known (m >>= f) d P R := by
  intro b d' hrun
  obtain ⟨a, d₁, hrun₁, hrun₂⟩ := Lower.exists_of_run_bind hrun
  have hle := hm d a d₁ hrun₁
  exact (h a d₁ hrun₁).trans (hnext a d₁ hrun₁ hle b d' hrun₂)
    (fun _ hknown hhere => ⟨hknown, hhere⟩) hle.nextLabel_le
    (hf a d₁ b d' hrun₂ _ d'.within_closed)

theorem lift {m : Emit α} (h : k.Emits known m d P Q) : k.Lowers known (liftM m) d P Q := by
  rintro _ _ ⟨⟩
  exact h

/-- A new label gets an assertion. -/
theorem freshLabel (A : Assertion) {f : Label → Lower β} (hf : ∀ l, (f l).Grows)
    (h : k.Lowers (fun ann => known ann ∧ ann ⟨d.nextLabel⟩ = A) (f ⟨d.nextLabel⟩)
      (Emit.freshLabel d).2 P R) : k.Lowers known (liftM Emit.freshLabel >>= f) d P R :=
  fun b d' hrun => .trans (.freshLabel A) (h b d' hrun)
    (fun _ hknown hlearnt => ⟨⟨hknown, hlearnt.1⟩, hlearnt.2⟩) (Nat.le_succ _)
    (hf _ _ b d' hrun _ d'.within_closed)

theorem ite {c : Prop} [Decidable c] {m m' : Lower α} (h : k.Lowers known m d P Q)
    (h' : k.Lowers known m' d P Q) : k.Lowers known (if c then m else m') d P Q := by
  split
  · exact h
  · exact h'

theorem mono {Q' : α → Draft → Assertion} (h : k.Lowers known m d P Q)
    (hQ : ∀ a d' w regs, k.Sized regs → Q a d' w regs → Q' a d' w regs) :
    k.Lowers known m d P Q' :=
  fun a d' hrun => (h a d' hrun).mono fun _ _ hhere => hhere.mono (hQ a d')

theorem weaken_known {known' : Annotation → Prop} (h : k.Lowers known m d P Q)
    (hknown : ∀ ann, known' ann → known ann) : k.Lowers known' m d P Q :=
  fun a d' hrun => (h a d' hrun).weaken_known hknown

end Lowers

theorem Stable.and {F : Draft → Assertion} (h : k.Stable d.types.size P) (hF : k.Lasts F) :
    k.Stable d.types.size fun w regs => P w regs ∧ F d w regs :=
  ⟨⟨fun hw hfollows hregs => ⟨h.follows hw.1 hfollows hregs, hF.follows hw.2 hfollows hregs⟩⟩,
    fun hw => h.returns hw.1⟩

namespace Lasts

theorem true : k.Lasts fun _ _ _ => True :=
  ⟨fun _ _ => trivial, fun _ _ _ => trivial⟩

theorem false : k.Lasts fun _ _ _ => False :=
  ⟨fun _ h => h, fun h _ _ => h⟩

theorem and {F G : Draft → Assertion} (hF : k.Lasts F) (hG : k.Lasts G) :
    k.Lasts fun d w regs => F d w regs ∧ G d w regs :=
  ⟨fun hle h => ⟨hF.below hle h.1, hG.below hle h.2⟩,
    fun h hfollows hregs => ⟨hF.follows h.1 hfollows hregs, hG.follows h.2 hfollows hregs⟩⟩

theorem index (r : Reg) : k.Lasts fun d _ _ => r.index < d.types.size :=
  ⟨fun hle hr => hr.trans_le hle.types_size_le, fun hr _ _ => hr⟩

theorem holds {φ : World → Value → Prop} (hφ : ∀ {w w' v}, φ w v → k.follows w w' → φ w' v)
    (r : Reg) : k.Lasts (Holds φ r) :=
  ⟨fun hle h => ⟨Nat.lt_of_lt_of_le h.1 hle.types_size_le, h.2⟩, fun h hfollows hregs =>
    ⟨h.1, by rw [hregs r h.1]; exact hφ h.2 hfollows⟩⟩

theorem tells {φ : World → Value → Prop} (hφ : ∀ {w w' v}, φ w v → k.follows w w' → φ w' v)
    (b : Bool) (r c : Reg) : k.Lasts (Tells φ b r c) := by
  refine ⟨fun hle ⟨hc, hr, htells⟩ => ⟨hc.trans_le hle.types_size_le, hr.trans_le hle.types_size_le, htells⟩,
    fun ⟨hc, hr, htells⟩ hfollows hregs => ⟨hc, hr, fun hcond => ?_⟩⟩
  rw [hregs c hc] at hcond
  rw [hregs r hr]
  exact hφ (htells hcond) hfollows

theorem forall₂ {ι : Type} {F : ι → Reg → Draft → Assertion} {is : List ι} {rs : List Reg}
    (h : ∀ i r, k.Lasts (F i r)) :
    k.Lasts fun d w regs => List.Forall₂ (fun i r => F i r d w regs) is rs :=
  ⟨fun hle => List.Forall₂.imp fun i r => (h i r).below hle,
    fun hall hfollows hregs => hall.imp fun i r hr => (h i r).follows hr hfollows hregs⟩

end Lasts

namespace Gives

variable {pre pre' : Draft → Assertion} {mid post : α → Draft → Assertion}
  {post' : β → Draft → Assertion}

protected theorem pure {a : α} (h : ∀ d w regs, pre d w regs → post a d w regs) :
    k.Gives pre (pure a) post :=
  ⟨.pure, fun _ hpre => by
    rintro _ _ ⟨⟩
    exact .of_blocks rfl fun _ _ hhere => hhere.mono fun w regs _ hw =>
      ⟨hw, h _ w regs (hpre w regs hw)⟩⟩

theorem throw {e : CompileError} : k.Gives pre (throw e : Lower α) post :=
  ⟨.throw, fun _ _ => by rintro _ _ ⟨⟩⟩

theorem mono {post' : α → Draft → Assertion} (h : k.Gives pre m post)
    (hpre : ∀ d w regs, pre' d w regs → pre d w regs)
    (hpost : ∀ a d w regs, post a d w regs → post' a d w regs) : k.Gives pre' m post' :=
  ⟨h.grows, fun hP hw => (h.lowers hP fun w regs hPw => hpre _ w regs (hw w regs hPw)).mono
    fun a d w regs _ hw => ⟨hw.1, hpost a d w regs hw.2⟩⟩

/-- What was known is still known for the rest of the code. -/
theorem bind_and (h : k.Gives pre m mid) (hpre : k.Lasts pre) (hmid : ∀ a, k.Lasts (mid a))
    (hnext : ∀ a, k.Gives (fun d w regs => pre d w regs ∧ mid a d w regs) (f a) post') :
    k.Gives pre (m >>= f) post' := by
  refine ⟨h.grows.bind fun a => (hnext a).grows, fun {d P} hP hw => ?_⟩
  refine .bind h.grows (fun a => (hnext a).grows) (h.lowers hP hw) fun a d' _ hle => ?_
  have hstable := (hP.mono hle.types_size_le).and (hmid a)
  refine ((hnext a).lowers hstable fun w regs hPw => ?_).mono
    fun _ _ w regs _ h => ⟨h.1.1, h.2⟩
  exact ⟨hpre.below hle (hw w regs hPw.1), hPw.2⟩

protected theorem bind (h : k.Gives pre m mid) (hmid : ∀ a, k.Lasts (mid a))
    (hnext : ∀ a, k.Gives (mid a) (f a) post') : k.Gives pre (m >>= f) post' := by
  refine ⟨h.grows.bind fun a => (hnext a).grows, fun {d P} hP hw => ?_⟩
  refine .bind h.grows (fun a => (hnext a).grows) (h.lowers hP hw) fun a d' _ hle => ?_
  have hstable := (hP.mono hle.types_size_le).and (hmid a)
  exact ((hnext a).lowers hstable fun _ _ hw => hw.2).mono fun _ _ _ _ _ h => ⟨h.1.1, h.2⟩

theorem of_true (h : k.Gives (fun _ _ _ => True) m post) : k.Gives pre m post :=
  h.mono (fun _ _ _ _ => trivial) fun _ _ _ _ h => h

/-- What holds of every result holds. -/
theorem and_of_run {T : α → Draft → Prop} (h : k.Gives pre m post)
    (hT : ∀ d a d', m.run d = (.ok a, d') → T a d') :
    k.Gives pre m fun a d w regs => T a d ∧ post a d w regs :=
  ⟨h.grows, fun {d _} hP hw a d' hrun =>
    (h.lowers hP hw a d' hrun).mono fun _ _ hhere => hhere.mono fun _ _ _ h =>
      ⟨h.1, hT d a d' hrun, h.2⟩⟩

theorem lift {m : Emit α} [Emit.Grows m]
    (h : ∀ {d P}, k.Stable d.types.size P → (∀ w regs, P w regs → pre d w regs) →
      k.Emits (fun _ => True) m d P fun a d' w regs => P w regs ∧ post a d' w regs) :
    k.Gives pre (liftM m) post :=
  ⟨.lift m, fun hP hw => .lift (h hP hw)⟩

end Gives

/-- Code of an emitter among code with several assertions. -/
theorem Gives.emitsAbove {m : Emit α} {n : Nat} {pre : Draft → Assertion}
    {post : α → Draft → Assertion} (h : k.Gives pre (liftM m) post) (hP : k.Stable n P)
    (hpre : ∀ w regs, P w regs → pre d w regs) :
    k.EmitsAbove n known m d P fun a d' w regs => P w regs ∧ post a d' w regs :=
  fun hn => Emits.weaken_known (h.lowers (hP.mono hn) hpre _ _ rfl) fun _ _ => trivial

/-- What is known of a value that is computed into a new register. -/
theorem Gives.value {ty : Ty} {i : Reg → Instr} {f : World → Array Value → Value}
    {pre : Draft → Assertion} {post : Reg → Draft → Assertion}
    (hasks : ∀ dst ann label before, k.Asks ann label before (i dst))
    (hready : ∀ dst w regs, k.Ready (i dst) w regs)
    (hrun : ∀ dst w regs, runInstr k.re k.pins k.code k.block regs (i dst) w =
      .ok (writeReg regs dst (f w regs), w))
    (hpost : ∀ {d r d' w before regs}, pre d w before → r.index < d'.types.size →
      (∀ s : Reg, s.index < d.types.size →
        s.index < d'.types.size ∧ readReg regs s = readReg before s) →
      readReg regs r = f w before → post r d' w regs) :
    k.Gives pre (liftM (do let dst ← Emit.freshReg ty; Emit.instr (i dst); return dst)) post := by
  refine .lift fun {d P} hP hw => ?_
  refine Emits.mono (EmitsAbove.value hP.toKept hasks
    (fun dst w regs hPw => ⟨hPw, hready dst w regs⟩) hrun le_rfl) fun w regs _ hafter => ?_
  obtain ⟨hPw, hr, hsize, before, hbefore, hv, hothers⟩ := hafter
  refine ⟨hPw, hpost (hw w before hbefore) ?_ (fun s hs => ⟨?_, hothers s (Nat.ne_of_lt hs)⟩) hv⟩
  · rw [hr, hsize]
    exact Nat.lt_succ_self _
  · rw [hsize]
    exact hs.trans (Nat.lt_succ_self _)

/-- The opposite truth value tells the same. -/
theorem gives_not {φ : World → Value → Prop} {b : Bool} {r c : Reg} :
    k.Gives (Tells φ b r c) (liftM (Emit.not c)) (Tells φ (!b) r) := by
  refine .value (fun _ _ _ _ => trivial) (fun _ _ _ => trivial) (fun _ _ _ => rfl)
    fun {d c' d' w before regs} hpre hc' hold hv => ?_
  obtain ⟨hc, hr, htells⟩ := hpre
  refine ⟨hc', (hold r hr).1, fun hcond => ?_⟩
  rw [(hold r hr).2]
  rw [hv] at hcond
  exact htells (by simpa [Value.asTruth] using hcond)

/-- What is known of what a helper makes. -/
theorem EmitsAbove.call {n : Nat} {H : Assertion} {helper : Helper} {rs : List Reg}
    {φ : World → Value → Prop} (hP : k.Kept n P)
    (hends : helper = .endCatch → ∀ before args, k.ends before args)
    (hH : ∀ w regs, H w regs → P w regs ∧ k.ready helper (rs.map (readReg regs)) w)
    (hvalue : ∀ {pins w regs v w'}, H w regs →
      callHelper k.re pins helper (rs.map (readReg regs)) w = .ok (v, w') →
        k.follows w w' ∧ φ w' v) :
    k.EmitsAbove n known (Emit.call helper rs) d H
      fun r d' w regs => P w regs ∧ Holds φ r d' w regs := by
  intro hn
  have hcall : k.Emits known (Emit.call helper rs) d H
      fun _ _ w regs => P w regs ∧ φ w (readReg regs ⟨d.types.size⟩) := by
    refine .newReg (fun ann _ _ => asks_call hends _ _ ann _ _) fun w regs hsize hw =>
      ⟨(hH w regs hw).2, fun w' regs' hrun => ?_⟩
    obtain ⟨v, w₁, hv, hrest⟩ := Run.bind_eq_ok hrun
    cases hrest
    obtain ⟨hfollows, hφ⟩ := hvalue hw hv
    refine ⟨hP.follows (hH w regs hw).1 hfollows fun r hr => readReg_writeReg_of_ne ?_, ?_⟩
    · exact Nat.ne_of_lt (hr.trans_le hn)
    · rwa [readReg_writeReg_self (r := ⟨d.types.size⟩) hsize]
  refine hcall.mono fun w regs _ hw => ⟨hw.1, ?_, hw.2⟩
  show d.types.size < (d.types.push _).size
  simp

theorem Spares.lowers {n : Nat} {regs : List Reg} {labels : List Label} {m : Emit α}
    (h : k.Spares k.Done n regs labels m) (hn : n ≤ d.types.size)
    (hregs : ∀ r ∈ regs, n ≤ r.index) (hP : k.Stable n P) :
    k.Lowers (fun ann => ∀ l ∈ labels, ann l = P) (liftM m) d P fun _ _ => P :=
  .lift (h.emits_stable hn hregs hP)

/-- Code that spares registers, and of which nothing more is known. -/
theorem Spares.gives {m : Emit α} [Emit.Grows m] {pre : Draft → Assertion}
    (h : ∀ n, k.Spares k.Done n [] [] m) : k.Gives pre (liftM m) fun _ _ _ _ => True :=
  .lift fun {d _} hP _ =>
    (((h d.types.size).emits_stable le_rfl (by simp) hP).weaken_known (by simp)).mono
      fun _ _ _ hw => ⟨hw, trivial⟩

/-! ### Values and ways out -/

namespace Gives

open Emit

variable {pre : Draft → Assertion}

/-- A constant is what it is. -/
theorem const (c : Ref) :
    k.Gives pre (liftM (Emit.const c)) (Holds fun _ v => v = .datum c) := by
  refine .lift fun {d P} hP _ => ?_
  obtain ⟨constants, hslot, -, hget, -⟩ := slot_cases c d
  have htypes : (slot c d).2.types = d.types := by rw [hslot]
  suffices hall : k.Emits (fun _ => True) (Emit.const c) d P
      fun _ _ w regs => P w regs ∧ readReg regs ⟨d.types.size⟩ = .datum c by
    refine hall.mono fun w regs _ hw => ⟨hw.1, ?_, ?_⟩
    · show (slot c d).2.types.size < ((slot c d).2.types.push _).size
      simp
    · show readReg regs ⟨(slot c d).2.types.size⟩ = _
      rw [htypes]
      exact hw.2
  intro hfits
  have hconst : k.code.constants.getD (slot c d).1 Ref.nothing = c := by
    have hconstants : (slot c d).2.constants.toList <+: k.code.constants.toList := hfits.constants
    rw [hslot] at hconstants
    obtain ⟨rest, hrest⟩ := hconstants
    have hlt := (Array.getElem?_eq_some_iff.mp hget).1
    rw [Array.getD_eq_getD_getElem?, ← Array.getElem?_toList, ← hrest,
      List.getElem?_append_left (by simpa using hlt), Array.getElem?_toList, hget]
    rfl
  have hload : k.Emits (fun _ => True)
      (do let dst ← freshReg .datum; instr (.const dst (slot c d).1); return dst) (slot c d).2 P
      fun _ _ w regs => P w regs ∧ readReg regs ⟨d.types.size⟩ = .datum c := by
    rw [hslot]
    refine .newReg (fun _ _ _ => trivial) fun w regs hsize hPw => ⟨trivial, fun w' regs' hrun => ?_⟩
    cases hrun
    refine ⟨hP.follows hPw (k.refl w) fun r hr => readReg_writeReg_of_ne (Nat.ne_of_lt hr), ?_⟩
    exact (readReg_writeReg_self (r := ⟨d.types.size⟩) hsize).trans (congrArg Value.datum hconst)
  have hspares : k.Spares k.Done d.types.size [] [] (slot c) := inferInstance
  exact Emits.bind (Q := fun _ _ => P)
    ((hspares.emits_stable le_rfl (by simp) hP).weaken_known (by simp)) hload hfits

/-- Where the code goes on the condition does not hold. -/
theorem returnWhen {φ : Draft → Assertion} (hφ : k.Lasts φ) {cond : Reg} {build : Emit Reg}
    [Grows build] [∀ n, k.Spares k.Done n [] [] build] :
    k.Gives (fun d w regs => (readReg regs cond).asTruth = false → φ d w regs)
      (liftM (Emit.returnWhen cond build)) fun _ => φ := by
  refine .lift fun {d P} hP hw => ?_
  have hreturn : k.EmitsAbove d.types.size (fun _ => True) (Emit.returnWhen cond build) d P
      fun _ _ w regs => P w regs ∧ φ d w regs := by
    refine .freshLabel P (.freshLabel (fun w regs => P w regs ∧ φ d w regs) ?_)
    refine .bind (.branchOn (fun _ _ hPw _ => hPw)
      (fun w regs hPw hcond => ⟨hPw, hw w regs hPw hcond⟩)
      fun ann hann => ⟨hann.1.2, hann.2, hann.1.2⟩) (.bind (.of_stable hP) ?_)
    exact .ret (fun _ _ => hP.returns) fun ann hann => hann.2
  exact (hreturn le_rfl).mono fun w regs _ hPw =>
    ⟨hPw.1, hφ.below (.of_emit (Emit.returnWhen cond build)) hPw.2⟩

/-- Nothing holds after a way out. -/
theorem returnNow (r : Reg) :
    k.Gives pre (liftM (Emit.returnNow r)) fun _ _ _ _ => False := by
  refine .lift fun {d P} hP _ => Emits.mono (Q := fun _ _ _ _ => False) ?_ fun _ _ _ h => h.elim
  exact EmitsAbove.freshLabel (fun _ _ => False)
    (.ret (fun _ _ => hP.returns) fun ann hann => hann.2) le_rfl

/-- Code that is never reached. -/
theorem dead {m : Emit α} [Grows m] {post : α → Draft → Assertion}
    (hm : ∀ n, k.Spares k.Done n [] [] m) (hpre : ∀ d w regs, ¬pre d w regs) :
    k.Gives pre (liftM m) post :=
  .lift fun hP hw => (((hm _).emits_stable le_rfl (by simp) hP).weaken_known (by simp)).mono
    fun w regs _ hPw => (hpre _ w regs (hw w regs hPw)).elim

/-- The code may return wherever it is. -/
theorem and_returns {post : α → Draft → Assertion} (hm : k.Gives pre m post) :
    k.Gives pre m fun a d w regs => k.returns w ∧ post a d w regs :=
  ⟨hm.grows, fun hP hw => (hm.lowers hP hw).mono fun _ _ _ _ _ h => ⟨h.1, hP.returns h.1, h.2⟩⟩

end Gives

/-! ### Literals and wrong numbers of inputs -/

instance (head : NodeHead) (helper : Helper) : Emit.Grows (emitArityFault head helper) := by
  unfold emitArityFault; infer_instance

instance (h : Heap) (c : Ref) (request : Request) : Emit.Grows (emitLiteral h c request) := by
  unfold emitLiteral
  split
  · infer_instance
  · split
    · split <;> infer_instance
    · infer_instance

section

variable {given : Assertion} {n : Nat} {regs : List Reg} {labels : List Label}

instance (h : Heap) (c : Ref) (request : Request) :
    k.Spares given n regs labels (emitLiteral h c request) := by
  unfold emitLiteral
  split
  · infer_instance
  · split
    · split <;> infer_instance
    · infer_instance

instance (head : NodeHead) (helper : Helper) [k.Allows given] [k.Calm helper] :
    k.Spares given n regs labels (emitArityFault head helper) := by
  unfold emitArityFault; infer_instance

/-- The helpers that report a wrong number of inputs are ordinary. -/
theorem calm_of_arityFault? [hk : k.Ordinary] {h : Heap} {head : NodeHead} {inputs : Nat}
    {helper : Helper} (hfault : arityFault? h head inputs = some helper) : k.Calm helper := by
  unfold arityFault? at hfault
  repeat' split at hfault
  all_goals cases hfault
  all_goals exact hk.calm rfl

end

/-! ### Outlines -/

/-- A proof outline for the code of nodes: what holds of the registers they leave, and one rule for
each piece of code that lowering puts together. -/
structure Outline (k : Watch) (h : Heap) where
  /-- The nodes that the outline is for. -/
  fits : NodeHead → List Node → Prop
  /-- What the type of a node's register is known to be. -/
  typed : Node → Request → Reg → Draft → Prop
  /-- What is known of a node's value. -/
  value : Node → Request → Reg → Draft → Assertion
  /-- What is known of an input that was cast. -/
  input : Request → Reg → Draft → Assertion
  typed_run : ∀ {node request d r d'}, node.Each fits →
    (lowerNode h node request).run d = (.ok r, d') → typed node request r d'
  value_lasts : ∀ node request r,
    k.Lasts fun d w regs => typed node request r d ∧ value node request r d w regs
  input_lasts : ∀ request r, k.Lasts (input request r)
  cast : ∀ {node} who request r, node.Each fits →
    k.Gives (fun d w regs => typed node request r d ∧ value node request r d w regs)
      (liftM (Emit.cast r who node.returns request)) (input request)
  condition : ∀ who r, k.Gives (input .datumOrTruth r) (liftM (Emit.condition who r))
    fun _ _ _ _ => True
  fault : ∀ {head inputs helper} request, fits head inputs →
    arityFault? h head inputs.length = some helper →
    k.Gives (fun _ _ _ => True) (liftM (emitArityFault head helper))
      (value (.call head inputs) request)
  literal : ∀ {head node rest} request, fits head (node :: rest) → head.generator = .literal →
    k.Gives (fun _ _ _ => True) (liftM (emitLiteral h node.ref request))
      (value (.call head (node :: rest)) request)
  valueOf : ∀ {head node rest} request, fits head (node :: rest) → head.generator = .valueOf →
    k.Gives (fun _ _ _ => True) (liftM (Emit.variableValue node.ref))
      (value (.call head (node :: rest)) request)
  choice : ∀ {head inputs} request r d w regs, fits head inputs →
    arityFault? h head inputs.length = none →
    head.generator = .conjunction ∨ head.generator = .disjunction →
    value (.call head inputs) request r d w regs
  emit : ∀ {head inputs rs} request, fits head inputs →
    arityFault? h head inputs.length = none → head.generator.isSpecial = false →
    k.Gives (fun d w regs => List.Forall₂ (fun p r => input p.2 r d w regs)
        (inputs.zip (head.generator.requests inputs.length)) rs)
      (emitNode h head rs) (value (.call head inputs) request)
  leave : ∀ {head inputs asked} self r request, fits head inputs →
    head.generator.exitRequest? = some asked →
    k.Gives (fun _ _ _ => True) (liftM (Emit.leaveWith head.ref .returnToken [self, r]))
      (value (.call head inputs) request)
  tail : ∀ {head inputs asked callee args rs} self request, fits head inputs →
    head.generator.exitRequest? = some asked → fits callee args →
    callee.generator = .execProcedure →
    k.Gives (fun d w regs => ∀ r ∈ rs, input .datum r d w regs)
      (liftM (Emit.const callee.ref) >>= fun target =>
        liftM (Emit.leaveWith head.ref .continuationToken (self :: target :: rs)))
      (value (.call head inputs) request)

namespace Outline

variable {h : Heap} (o : Outline k h) {head : NodeHead} {node : Node} {inputs : List Node}

/-- What is known of a node's register. -/
def Raw (node : Node) (request : Request) (r : Reg) : Draft → Assertion :=
  fun d w regs => o.typed node request r d ∧ o.value node request r d w regs

/-- What is known of the registers of several nodes. -/
def RawAll (nodes : List Node) (requests : List Request) (rs : List Reg) : Draft → Assertion :=
  fun d w regs => List.Forall₂ (fun p r => o.Raw p.1 p.2 r d w regs) (nodes.zip requests) rs

/-- What is known of inputs that were cast. -/
def Inputs (nodes : List Node) (requests : List Request) (rs : List Reg) : Draft → Assertion :=
  fun d w regs => List.Forall₂ (fun p r => o.input p.2 r d w regs) (nodes.zip requests) rs

/-- The code of a node follows the outline. -/
def Leads (node : Node) : Prop :=
  ∀ request, k.Gives (fun _ _ _ => True) (lowerNode h node request) (o.Raw node request)

variable {o}

theorem rawAll_lasts (nodes : List Node) (requests : List Request) (rs : List Reg) :
    k.Lasts (o.RawAll nodes requests rs) :=
  .forall₂ fun p r => o.value_lasts p.1 p.2 r

theorem inputs_lasts (nodes : List Node) (requests : List Request) (rs : List Reg) :
    k.Lasts (o.Inputs nodes requests rs) :=
  .forall₂ fun p r => o.input_lasts p.2 r

/-! ### Inputs -/

theorem gives_lowerInputs (hinputs : ∀ input ∈ inputs, o.Leads input) (requests : List Request) :
    k.Gives (fun _ _ _ => True) (lowerInputs h inputs requests) (o.RawAll inputs requests) := by
  induction inputs generalizing requests with
  | nil =>
    rw [lowerInputs.eq_def]
    exact .pure fun _ _ _ _ => .nil
  | cons node nodes ih =>
    cases requests with
    | nil =>
      rw [lowerInputs.eq_def]
      exact .pure fun _ _ _ _ => .nil
    | cons request requests =>
      rw [List.forall_mem_cons] at hinputs
      rw [lowerInputs]
      refine .bind (hinputs.1 request) (o.value_lasts node request) fun r => ?_
      refine .bind_and (ih hinputs.2 requests).of_true (o.value_lasts node request r)
        (rawAll_lasts nodes requests) fun rs => ?_
      exact .pure fun d w regs hw => .cons hw.1 hw.2

theorem gives_castInputs {nodes : List Node} (hnodes : ∀ node ∈ nodes, node.Each o.fits) (who : Ref)
    (rs : List Reg) (requests : List Request) :
    k.Gives (o.RawAll nodes requests rs) (liftM (castInputs who rs nodes requests))
      (o.Inputs nodes requests) := by
  induction rs generalizing nodes requests with
  | nil =>
    unfold castInputs
    refine .pure fun d w regs hw => ?_
    rw [Inputs, List.forall₂_nil_right_iff.mp hw]
    exact .nil
  | cons r rs ih =>
    cases nodes with
    | nil =>
      unfold castInputs
      exact .pure fun _ _ _ hw => nomatch hw
    | cons node nodes =>
      cases requests with
      | nil =>
        unfold castInputs
        exact .pure fun _ _ _ hw => nomatch hw
      | cons request requests =>
        rw [List.forall_mem_cons] at hnodes
        simp only [castInputs, liftM_bind, liftM_pure]
        refine .bind_and ((o.cast who request r hnodes.1).mono
          (fun _ _ _ hw => (List.forall₂_cons.mp hw).1) fun _ _ _ _ h => h)
          (rawAll_lasts ..) (o.input_lasts request) fun r' => ?_
        refine .bind_and ((ih hnodes.2 requests).mono
          (fun _ _ _ hw => (List.forall₂_cons.mp hw.1).2) fun _ _ _ _ h => h)
          ((rawAll_lasts ..).and (o.input_lasts request r')) (fun _ => inputs_lasts ..) fun rs' => ?_
        exact .pure fun d w regs hw => .cons hw.1.2 hw.2

/-! ### Choices -/

/-- An operand of a choice, as a truth value. -/
theorem gives_operand (hnode : o.Leads node) (heach : node.Each o.fits) (who : Ref) :
    k.Gives (fun _ _ _ => True)
      (lowerNode h node .datumOrTruth >>= fun raw =>
        liftM (Emit.cast raw who node.returns .datumOrTruth) >>= fun value =>
          liftM (Emit.condition who value)) fun _ _ _ _ => True := by
  refine .bind (hnode .datumOrTruth) (o.value_lasts node .datumOrTruth) fun raw => ?_
  refine .bind (o.cast who .datumOrTruth raw heach) (o.input_lasts .datumOrTruth) fun value => ?_
  exact o.condition who value

theorem grows_choices (hinputs : ∀ input ∈ inputs, o.Leads input) (conj : Bool) (result : Reg)
    (exit : Label) : (lowerChoices h head conj result exit inputs).Grows := by
  induction inputs with
  | nil =>
    rw [lowerChoices]
    exact .pure
  | cons operand rest ih =>
    rw [List.forall_mem_cons] at hinputs
    rw [lowerChoices]
    refine (hinputs.1 _).grows.bind fun raw => (Lower.Grows.lift _).bind fun value =>
      (Lower.Grows.lift _).bind fun b => (Lower.Grows.lift _).bind fun _ => .ite .pure ?_
    exact (Lower.Grows.lift _).bind fun next => (Lower.Grows.lift _).bind fun _ => ih hinputs.2

/-- The inputs of a choice keep the assertion of its exit, if that is not about the result. -/
theorem lowers_lowerChoices {n : Nat} {result : Reg} {exit : Label} (conj : Bool)
    (hinputs : ∀ input ∈ inputs, o.Leads input) (heach : ∀ input ∈ inputs, input.Each o.fits)
    (hP : k.Stable n P) (hn : n ≤ d.types.size) (hresult : n ≤ result.index) :
    k.Lowers (fun ann => ∀ l ∈ [exit], ann l = P)
      (lowerChoices h head conj result exit inputs) d P fun _ _ => P := by
  induction inputs generalizing d with
  | nil =>
    rw [lowerChoices]
    exact .pure
  | cons operand rest ih =>
    rw [List.forall_mem_cons] at hinputs heach
    have hoperand := gives_operand hinputs.1 heach.1 head.name
    have hrest : (lowerChoices h head conj result exit rest).Grows :=
      grows_choices hinputs.2 conj result exit
    -- the operand as a truth value comes first
    have hsplit : lowerChoices h head conj result exit (operand :: rest) =
        (lowerNode h operand .datumOrTruth >>= fun raw =>
          liftM (Emit.cast raw head.name operand.returns .datumOrTruth) >>= fun value =>
            liftM (Emit.condition head.name value)) >>= fun b =>
        liftM (Emit.move result b) >>= fun _ =>
        if rest.isEmpty then pure () else
          liftM Emit.freshLabel >>= fun next =>
          liftM (Emit.endBlock (if conj then .branch b next exit else .branch b exit next) next) >>=
            fun _ => lowerChoices h head conj result exit rest := by
      rw [lowerChoices]
      simp only [bind_assoc]
    have hnext : ∀ exit' next, (liftM (Emit.endBlock exit' next) >>= fun _ =>
        lowerChoices h head conj result exit rest).Grows :=
      fun _ _ => (Lower.Grows.lift _).bind fun _ => hrest
    have hafter : ∀ b : Reg, (if rest.isEmpty then pure () else
        liftM Emit.freshLabel >>= fun next =>
        liftM (Emit.endBlock (if conj then .branch b next exit else .branch b exit next) next) >>=
          fun _ => lowerChoices h head conj result exit rest : Lower Unit).Grows :=
      fun b => .ite .pure ((Lower.Grows.lift _).bind fun next => hnext _ next)
    rw [hsplit]
    have hlowers := hoperand.lowers (hP.mono hn) fun _ _ _ => trivial
    refine .bind hoperand.grows (fun b => (Lower.Grows.lift _).bind fun _ => hafter b)
      ((hlowers.mono fun _ _ _ _ _ hw => hw.1).weaken_known fun _ _ => trivial)
      fun b d₁ _ hle => ?_
    have hn₁ := hn.trans hle.types_size_le
    have hmove : k.Spares k.Done n [result] [exit] (Emit.move result b) := inferInstance
    refine .bind (.lift _) (fun _ => hafter b) (hmove.lowers hn₁ (by simpa using hresult) hP)
      fun _ d₂ _ hle₂ => ?_
    have hn₂ := hn₁.trans hle₂.types_size_le
    refine .ite .pure (.freshLabel P (fun next => hnext _ next) ?_)
    have hend : k.Spares k.Done n [] [⟨d₂.nextLabel⟩, exit]
        (Emit.endBlock (if conj then .branch b ⟨d₂.nextLabel⟩ exit
          else .branch b exit ⟨d₂.nextLabel⟩) ⟨d₂.nextLabel⟩) := by
      split <;> infer_instance
    refine Lowers.bind (Q := fun _ _ => P) (.lift _) (fun _ => hrest) ?_ fun _ d₃ _ hle₃ => ?_
    · exact (hend.lowers (d := (Emit.freshLabel d₂).2) hn₂ (by simp) hP).weaken_known
        fun _ hknown => List.forall_mem_cons.mpr ⟨hknown.2, hknown.1⟩
    · exact (ih hinputs.2 heach.2 (hn₂.trans hle₃.types_size_le)).weaken_known fun _ hknown => hknown.1

theorem gives_emitChoice (conj : Bool) (hinputs : ∀ input ∈ inputs, o.Leads input)
    (heach : ∀ input ∈ inputs, input.Each o.fits) :
    k.Gives (fun _ _ _ => True) (emitChoice conj inputs.isEmpty fun result exit =>
      lowerChoices h head conj result exit inputs) fun _ _ _ _ => True := by
  have hgrows : ∀ result exit, (lowerChoices h head conj result exit inputs).Grows :=
    grows_choices hinputs conj
  have hafter : ∀ result exit, (lowerChoices h head conj result exit inputs >>= fun _ =>
      liftM (Emit.endBlock (.jump exit) exit) >>= fun _ => pure result : Lower Reg).Grows :=
    fun result exit => (hgrows result exit).bind fun _ => (Lower.Grows.lift _).bind fun _ => .pure
  have hchoice : ∀ result, (if inputs.isEmpty then pure result else
      liftM Emit.freshLabel >>= fun exit => lowerChoices h head conj result exit inputs >>= fun _ =>
        liftM (Emit.endBlock (.jump exit) exit) >>= fun _ => pure result : Lower Reg).Grows :=
    fun result => .ite .pure ((Lower.Grows.lift _).bind fun exit => hafter result exit)
  unfold emitChoice
  refine ⟨(Lower.Grows.lift _).bind fun result => (Lower.Grows.lift _).bind fun initial =>
    (Lower.Grows.lift _).bind fun _ => hchoice result, fun {d P} hP _ => ?_⟩
  refine Lowers.mono (Q := fun _ _ => P) ?_ fun _ _ _ _ _ hw => ⟨hw, trivial⟩
  have hfresh : k.Emits (fun _ => True) (Emit.freshReg .truth) d P fun _ _ => P :=
    Emits.freshReg .pure
  -- the assertion holds again after each step; only the label of the exit is new to it
  refine .bind (.lift _) (fun result => (Lower.Grows.lift _).bind fun initial =>
    (Lower.Grows.lift _).bind fun _ => hchoice result) (.lift hfresh) fun result d₁ hrun hle₁ => ?_
  cases hrun
  have htruth : k.Spares k.Done d.types.size [] [] (Emit.truth conj) := inferInstance
  refine .bind (.lift _) (fun initial => (Lower.Grows.lift _).bind fun _ => hchoice _)
    ((htruth.lowers hle₁.types_size_le (by simp) hP).weaken_known (by simp)) fun initial d₂ _ hle₂ => ?_
  have hn₂ := hle₁.types_size_le.trans hle₂.types_size_le
  have hmove : k.Spares k.Done d.types.size [⟨d.types.size⟩] [] (Emit.move ⟨d.types.size⟩ initial) :=
    inferInstance
  refine .bind (.lift _) (fun _ => hchoice _)
    ((hmove.lowers hn₂ (by simp) hP).weaken_known (by simp)) fun _ d₃ _ hle₃ => ?_
  have hn₃ := hn₂.trans hle₃.types_size_le
  refine .ite .pure (.freshLabel P (fun exit => hafter _ exit) ?_)
  refine Lowers.bind (Q := fun _ _ => P) (hgrows _ _)
    (fun _ => (Lower.Grows.lift _).bind fun _ => .pure) ?_ fun _ d₄ _ hle₄ => ?_
  · exact (lowers_lowerChoices (d := (Emit.freshLabel d₃).2) conj hinputs heach hP hn₃
      le_rfl).weaken_known (by simp)
  have hend : k.Spares k.Done d.types.size [] [⟨d₃.nextLabel⟩]
      (Emit.endBlock (.jump ⟨d₃.nextLabel⟩) ⟨d₃.nextLabel⟩) := inferInstance
  refine Lowers.bind (Q := fun _ _ => P) (.lift _) (fun _ => .pure) ?_ fun _ _ _ _ => .pure
  exact (hend.lowers (hn₃.trans hle₄.types_size_le) (by simp) hP).weaken_known (by simp)

/-! ### Ways out -/

/-- A node follows the outline, and so do its inputs. -/
def LeadsOut (o : Outline k h) (node : Node) : Prop :=
  node.Each o.fits ∧ o.Leads node ∧
    ∀ head inputs, node = .call head inputs → ∀ input ∈ inputs, o.Leads input

/-- Inputs of which the same is asked. -/
theorem Inputs.forall_mem {nodes : List Node} {request : Request} {rs : List Reg} {w : World}
    {regs : Array Value}
    (hrs : o.Inputs nodes (List.replicate nodes.length request) rs d w regs) :
    ∀ r ∈ rs, o.input request r d w regs := by
  intro r hr
  obtain ⟨i, hi, rfl⟩ := List.getElem_of_mem hr
  have hlength := hrs.length_eq
  have hinput := hrs.get (hlength ▸ hi) hi
  simpa using hinput

theorem gives_lowerExit {asked : Request} (request : Request) (hfits : o.fits head inputs)
    (hasked : head.generator.exitRequest? = some asked)
    (hinputs : ∀ input ∈ inputs, o.LeadsOut input) :
    k.Gives (fun _ _ _ => True) (lowerExit h head asked inputs)
      (o.value (.call head inputs) request) := by
  have hconst : ∀ c, k.Gives (fun _ _ _ => True) (liftM (Emit.const c)) fun _ _ _ _ => True :=
    fun c => Spares.gives fun _ => inferInstance
  have hleave : ∀ self r, k.Gives (fun _ _ _ => True)
      (liftM (Emit.leaveWith head.ref .returnToken [self, r]))
      (o.value (.call head inputs) request) :=
    fun self r => o.leave self r request hfits hasked
  cases inputs with
  | nil =>
    rw [lowerExit]
    exact .bind (hconst _) (fun _ => .true) fun self =>
      .bind (hconst _) (fun _ => .true) fun value => hleave self value
  | cons input rest =>
    rw [List.forall_mem_cons] at hinputs
    cases input with
    | datum r =>
      rw [lowerExit]
      exact .bind (hconst _) (fun _ => .true) fun _ => .throw
    | call callee args =>
      obtain ⟨heach, hleads, hargs⟩ := hinputs.1
      rw [lowerExit]
      refine .bind (hconst _) (fun _ => .true) fun self => ?_
      split
      · next hcall =>
        cases heach with
        | call hfits' heach =>
        refine .bind (gives_lowerInputs (hargs callee args rfl) _) (rawAll_lasts _ _) fun raw => ?_
        refine .bind (gives_castInputs heach callee.name raw _) (inputs_lasts _ _)
          fun rs => ?_
        refine (o.tail self request hfits hasked hfits' hcall).mono (fun d w regs hw => ?_)
          fun _ _ _ _ h => h
        exact hw.forall_mem
      · refine .bind (hleads asked) (o.value_lasts _ asked) fun raw => ?_
        refine .bind (o.cast head.name asked raw heach) (o.input_lasts asked) fun value => ?_
        split
        · exact .bind (hconst _).of_true (fun _ => .true) fun value => hleave self value
        · exact (hleave self value).of_true

/-! ### Nodes -/

/-- **Lowering follows the outline**, by induction over the node. -/
theorem leadsOut (hnode : node.Each o.fits) : o.LeadsOut node := by
  -- `lowerExit` reads the inputs of a call in tail position, so they are part of what is proved
  induction hnode with
  | datum r =>
    refine ⟨.datum r, fun request => ?_, by simp⟩
    rw [lowerNode]
    exact .throw
  | @call head inputs hfits hinputs ih =>
    refine ⟨.call hfits hinputs, fun request => ?_, ?_⟩
    · refine .and_of_run ?_ fun d r d' hrun => o.typed_run (.call hfits hinputs) hrun
      have hleads : ∀ input ∈ inputs, o.Leads input := fun input hinput => (ih input hinput).2.1
      cases hfault : arityFault? h head inputs.length with
      | some helper =>
        rw [lowerNode.eq_def]
        simp only [hfault]
        exact o.fault request hfits hfault
      | none =>
        by_cases hspecial : head.generator.isSpecial = true
        · rcases Generator.isSpecial_cases hspecial with hg | hg | hg | hg | ⟨asked, hasked⟩
          · rw [lowerNode.eq_def]
            simp only [hfault, hg]
            cases inputs with
            | nil => exact .throw
            | cons node rest => exact o.literal request hfits hg
          · rw [lowerNode.eq_def]
            simp only [hfault, hg]
            cases inputs with
            | nil => exact .throw
            | cons node rest => exact o.valueOf request hfits hg
          · rw [(lowerNode_choice true hfault hg request).1]
            exact (gives_emitChoice true hleads hinputs).mono (fun _ _ _ h => h)
              fun r d w regs _ => o.choice request r d w regs hfits hfault (.inl hg)
          · rw [(lowerNode_choice false hfault hg request).1]
            exact (gives_emitChoice false hleads hinputs).mono (fun _ _ _ h => h)
              fun r d w regs _ => o.choice request r d w regs hfits hfault (.inr hg)
          · rw [(lowerNode_exit hfault hasked request).1]
            exact gives_lowerExit request hfits hasked ih
        · rw [lowerNode_generic hfault (by simpa using hspecial)]
          refine .bind (gives_lowerInputs hleads _) (rawAll_lasts _ _) fun raw => ?_
          refine .bind (gives_castInputs hinputs head.name raw _) (inputs_lasts _ _)
            fun rs => ?_
          exact o.emit request hfits hfault (by simpa using hspecial)
    · rintro _ _ ⟨⟩ input hinput
      exact (ih input hinput).2.1

/-! ### Statements -/

theorem gives_lowerNodes {nodes : List Node} (hnodes : ∀ node ∈ nodes, node.Each o.fits)
    (last : Option Ref) (result : Option Reg) :
    k.Gives (fun _ _ _ => True) (lowerNodes h last result nodes) fun _ _ _ _ => True := by
  induction nodes generalizing result with
  | nil =>
    rw [lowerNodes]
    exact .pure fun _ _ _ _ => trivial
  | cons node rest ih =>
    rw [List.forall_mem_cons] at hnodes
    rw [lowerNodes]
    refine .bind ((leadsOut hnodes.1).2.1 _) (o.value_lasts node _) fun raw => ?_
    refine .bind (o.cast _ _ raw hnodes.1) (o.input_lasts _) fun r => ?_
    exact (ih hnodes.2 (some r)).of_true

section

variable {S : Assertion} {line last : Option Ref} {result r : Option Reg}

theorem between_lowerNodes (hS : k.Stable 0 S) {nodes : List Node}
    (hnodes : ∀ node ∈ nodes, node.Each o.fits) {d' : Draft}
    (hrun : (lowerNodes h last result nodes).run d = (.ok r, d')) :
    d.Below d' ∧ ∀ known, k.Between known d d' S fun ann => k.Here ann d' S := by
  have hgives := gives_lowerNodes hnodes last result
  have hlowers := hgives.lowers (hS.mono (Nat.zero_le d.types.size)) fun _ _ _ => trivial
  refine ⟨hgives.grows d r d' hrun, fun known => ?_⟩
  exact ((hlowers.mono fun _ _ _ _ _ hw => hw.1) r d' hrun).weaken_known fun _ _ => trivial

/-- A numbered block starts with the assertion that held before it. -/
theorem between_start : k.Between known d
    (Emit.endBlock (.jump ⟨d.nextLabel⟩) ⟨d.nextLabel⟩ (Emit.freshLabel d).2).2 S fun ann =>
      ann ⟨d.nextLabel⟩ = S ∧
        k.Here ann (Emit.endBlock (.jump ⟨d.nextLabel⟩) ⟨d.nextLabel⟩ (Emit.freshLabel d).2).2 S := by
  have hend : k.Emits (fun ann => ann ⟨d.nextLabel⟩ = S)
      (Emit.endBlock (.jump ⟨d.nextLabel⟩) ⟨d.nextLabel⟩) (Emit.freshLabel d).2 S fun _ _ => S :=
    .endBlock fun ann hlabel => ⟨hlabel, fun _ _ _ hw => by rwa [Leaves, hlabel]⟩
  refine .trans (.freshLabel S) (Between.mono hend fun ann hlabel hhere => ⟨hlabel, hhere⟩)
    (fun ann _ hlearnt => hlearnt) (Nat.le_succ _) ?_
  exact Emit.Grows.within (m := Emit.endBlock _ _) (Draft.within_closed _)

/-- Between statements, and where numbered blocks start, one assertion holds. -/
theorem between_lowerGroups (hS : k.Stable 0 S) {groups : List (List Node)}
    (hgroups : ∀ group ∈ groups, ∀ node ∈ group, node.Each o.fits) {starts starts' : List Label}
    {d' : Draft}
    (hrun : (lowerGroups h line last result starts groups).run d = (.ok (r, starts'), d')) :
    d.Below d' ∧ k.Between (fun ann => ∀ l ∈ starts, ann l = S) d d' S
      fun ann => (∀ l ∈ starts', ann l = S) ∧ k.Here ann d' S := by
  -- on the groups, with the starts so far known to have the assertion `S`
  induction groups generalizing result starts d with
  | nil =>
    rw [lowerGroups] at hrun
    cases hrun
    exact ⟨.refl, .of_blocks rfl fun _ hknown hhere => ⟨hknown, hhere⟩⟩
  | cons group rest ih =>
    rw [List.forall_mem_cons] at hgroups
    rw [lowerGroups] at hrun
    split at hrun
    · obtain ⟨_, d₁, hrun₁, hrun⟩ := Lower.exists_of_run_bind hrun
      obtain ⟨label, _, hlabel, hrun⟩ := Lower.exists_of_run_bind hrun
      cases hlabel
      obtain ⟨_, d₂, hrun₂, hrun⟩ := Lower.exists_of_run_bind hrun
      obtain ⟨result₁, d₃, hrun₃, hrun₄⟩ := Lower.exists_of_run_bind hrun
      have hle₁ : d.Below d₁ := Lower.Grows.lift _ d _ d₁ hrun₁
      have hle₂ : d₁.Below d₂ :=
        (Draft.Below.of_emit Emit.freshLabel).trans (Lower.Grows.lift _ _ _ d₂ hrun₂)
      obtain ⟨hle₃, hnodes⟩ := between_lowerNodes hS
        (fun node hnode => hgroups.1 node ((List.dropWhile_sublist _).subset hnode)) hrun₃
      obtain ⟨hle₄, hrest⟩ := ih hgroups.2 hrun₄
      have hbody := (hnodes _).trans hrest (fun _ hknown hhere => ⟨hknown, hhere⟩) hle₃.nextLabel_le
        (hle₄ _ d'.within_closed)
      have htags : k.Between (fun ann => ∀ l ∈ starts, ann l = S) d d₁ S
          fun ann => k.Here ann d₁ S := by
        cases hrun₁
        exact .of_blocks rfl fun _ _ hhere => hhere
      have hstart : k.Between (fun ann => ∀ l ∈ starts, ann l = S) d₁ d₂ S
          fun ann => ann ⟨d₁.nextLabel⟩ = S ∧ k.Here ann d₂ S := by
        cases hrun₂
        exact between_start
      refine ⟨hle₁.trans (hle₂.trans (hle₃.trans hle₄)), ?_⟩
      refine htags.trans (hstart.trans hbody (fun _ hknown hlearnt => ⟨?_, hlearnt.2⟩)
        hle₂.nextLabel_le ((hle₃.trans hle₄) _ d'.within_closed))
        (fun _ hknown hhere => ⟨hknown, hhere⟩) hle₁.nextLabel_le
        ((hle₂.trans (hle₃.trans hle₄)) _ d'.within_closed)
      exact List.forall_mem_append.mpr ⟨hknown, by simpa using hlearnt.1⟩
    · obtain ⟨result₁, d₁, hrun₁, hrun₂⟩ := Lower.exists_of_run_bind hrun
      obtain ⟨hle₁, hnodes⟩ := between_lowerNodes hS hgroups.1 hrun₁
      obtain ⟨hle₂, hrest⟩ := ih hgroups.2 hrun₂
      exact ⟨hle₁.trans hle₂, (hnodes _).trans hrest (fun ann hknown hhere => ⟨hknown, hhere⟩)
        hle₁.nextLabel_le (hle₂ _ d'.within_closed)⟩

end

end Outline

/-- The outline that knows nothing of registers: it is enough that the code of every node spares
them. -/
def Outline.plain (k : Watch) [k.Ordinary] [k.Running] (h : Heap)
    (hemit : ∀ (pre : Draft → Assertion) head rs, k.Gives pre (emitNode h head rs) fun _ _ _ _ => True) :
    k.Outline h where
  fits _ _ := True
  typed _ _ _ _ := True
  value _ _ _ _ _ _ := True
  input _ _ _ _ _ := True
  typed_run _ _ := trivial
  value_lasts _ _ _ := ⟨fun _ h => h, fun h _ _ => h⟩
  input_lasts _ _ := .true
  cast _ _ _ _ := Spares.gives fun _ => inferInstance
  condition _ _ := Spares.gives fun _ => inferInstance
  fault _ _ hfault := by
    have := calm_of_arityFault? (k := k) hfault
    exact Spares.gives fun _ => inferInstance
  literal _ _ _ := Spares.gives fun _ => inferInstance
  valueOf _ _ _ := Spares.gives fun _ => inferInstance
  choice _ _ _ _ _ _ _ _ := trivial
  emit _ _ _ _ := hemit _ _ _
  leave _ _ _ _ _ := Spares.gives fun _ => inferInstance
  tail _ _ _ _ _ _ := .bind (Spares.gives fun _ => inferInstance) (fun _ => .true) fun _ =>
    Spares.gives fun _ => inferInstance

/-! ### The table of contents -/

section

variable {S : Assertion} {ann : Annotation}

theorem valid_withTest (hS : k.Stable 0 S) {entry start next : Label} (cond : Reg) (id : Int)
    (hentry : ann entry = S) (hstart : ann start = S) (hnext : ann next = S) :
    k.Valid ann ⟨entry, [.atBlock cond id], .branch cond start next⟩ := by
  refine ⟨fun before i after hbody => ?_, fun w regs _ hw => ⟨trivial, fun w' regs' hrun => ?_⟩⟩
  · have hi : i ∈ before ++ i :: after := List.mem_append_right before List.mem_cons_self
    rw [← hbody] at hi
    rw [List.mem_singleton.mp hi]
    trivial
  cases hrun
  simp only [Along, Leaves, hstart, hnext, ite_self]
  simp only [hentry] at hw
  exact hS.follows hw (k.refl w) (by simp)

/-- Every test leads to where the same assertion holds. -/
theorem valid_contentsBlocks (hS : k.Stable 0 S) {first : Label} (hfirst : ann first = S)
    {tests : List (Label × Label)} (htests : ∀ p ∈ tests, ann p.1 = S ∧ ann p.2 = S) (id : Nat)
    (hbody : d.body = #[]) :
    ∀ b ∈ (contentsBlocks first id tests d).2.blocks, b ∈ d.blocks ∨ k.Valid ann b := by
  induction tests generalizing id d with
  | nil => exact fun b hb => .inl hb
  | cons test tests ih =>
    obtain ⟨entry, start⟩ := test
    rw [List.forall_mem_cons] at htests
    rw [contentsBlocks_cons first id entry start tests hbody]
    intro b hb
    rcases ih htests.2 (id + 1) rfl b hb with hb | hvalid
    · rcases Array.mem_push.mp hb with hb | rfl
      · exact .inl hb
      · refine .inr (valid_withTest hS _ id htests.1.1 htests.1.2 ?_)
        cases tests with
        | nil => exact hfirst
        | cons test tests => exact (htests.2 test List.mem_cons_self).1
    · exact .inr hvalid

/-- The table of contents starts where the same assertion holds. -/
theorem exists_valid_tableOfContents (hS : k.Stable 0 S) (starts : List Label)
    (hbody : d.body = #[]) :
    d.Followed (tableOfContents starts d).2 ∧ ∀ ann : Annotation, ann ⟨0⟩ = S →
      (∀ l ∈ starts, ann l = S) → (∀ l : Label, d.nextLabel ≤ l.index →
        l.index < (tableOfContents starts d).2.nextLabel → ann l = S) →
      (∀ b ∈ (tableOfContents starts d).2.blocks, b ∈ d.blocks ∨ k.Valid ann b) ∧
        ann (tableOfContents starts d).1 = S := by
  rw [tableOfContents_run]
  dsimp only
  have hfollowed := followed_contentsBlocks ⟨0⟩ 1
    (((List.range' d.nextLabel starts.length).map Label.mk).zip starts)
    (d := { d with nextLabel := d.nextLabel + starts.length }) hbody
  refine ⟨⟨hfollowed.types, hfollowed.constants, (Nat.le_add_right _ _).trans hfollowed.labels,
    hfollowed.blocks⟩, fun ann hzero hstarts hnew => ?_⟩
  have hentries : ∀ l ∈ (List.range' d.nextLabel starts.length).map Label.mk, ann l = S := by
    intro l hl
    obtain ⟨i, hi, rfl⟩ := List.mem_map.mp hl
    obtain ⟨hle, hlt⟩ := List.mem_range'_1.mp hi
    exact hnew ⟨i⟩ hle (Nat.lt_of_lt_of_le hlt hfollowed.labels)
  refine ⟨valid_contentsBlocks hS hzero (fun p hp => ?_) 1 hbody, ?_⟩
  · obtain ⟨hentry, hstart⟩ := List.of_mem_zip hp
    exact ⟨hentries _ hentry, hstarts _ hstart⟩
  · cases hhead : ((List.range' d.nextLabel starts.length).map Label.mk).head? with
    | none => exact hzero
    | some l => exact hentries l (List.mem_of_mem_head? hhead)

/-- The end of a routine, with its table of contents. -/
theorem between_closeRoutine (hS : k.Stable 0 S) {r : Reg} {starts : List Label} {entry : Label}
    {d' : Draft} (hrun : (liftM (closeRoutine r) >>= fun _ =>
      if 1 < starts.length then liftM (tableOfContents (starts.drop 1)) else pure ⟨0⟩ :
        Lower Label).run d = (.ok entry, d')) :
    d.Within d'.closed ∧
      k.Between (fun ann => ann ⟨0⟩ = S ∧ ∀ l ∈ starts, ann l = S) d d' S
        fun ann => ann entry = S := by
  obtain ⟨_, d₁, hrun₁, hrun⟩ := Lower.exists_of_run_bind hrun
  obtain rfl : (closeRoutine r d).2 = d₁ := by cases hrun₁; rfl
  have hend : (closeRoutine r d).2.Followed d' ∧ ∀ ann : Annotation, ann ⟨0⟩ = S →
      (∀ l ∈ starts, ann l = S) →
      (∀ l : Label, d.nextLabel ≤ l.index → l.index < d'.nextLabel → ann l = S) →
      (∀ b ∈ d'.blocks, b ∈ (closeRoutine r d).2.blocks ∨ k.Valid ann b) ∧ ann entry = S := by
    split at hrun
    · cases hrun
      obtain ⟨hfollowed, hvalid⟩ := exists_valid_tableOfContents (d := (closeRoutine r d).2) hS
        (starts.drop 1) rfl
      exact ⟨hfollowed, fun ann hzero hstarts => hvalid ann hzero fun l hl =>
        hstarts l (List.mem_of_mem_drop hl)⟩
    · cases hrun
      exact ⟨.refl, fun ann hzero _ _ => ⟨fun _ hb => .inl hb, hzero⟩⟩
  obtain ⟨hfollowed, hvalid⟩ := hend
  have hclosed : d'.Followed d'.closed :=
    ⟨List.prefix_rfl, rfl, Nat.le_refl _, fun _ hb => Array.mem_push.mpr (.inl hb)⟩
  refine ⟨(hfollowed.trans hclosed).within, fun _ => ⟨fun _ => S, fun ann hknown hfresh hhere => ?_⟩⟩
  obtain ⟨hblocks, hentry⟩ := hvalid ann hknown.1 hknown.2 hfresh
  refine ⟨fun b hb => (hblocks b hb).elim (fun hb => ?_) .inr, hentry⟩
  rcases Array.mem_push.mp hb with hb | rfl
  · exact .inl hb
  · exact .inr ⟨hhere.1, fun w regs hsized hl =>
      (hhere.2 w regs hsized hl).mono hsized fun _ _ _ hw => hS.returns hw⟩

end

/-! ### Routines -/

namespace Outline

variable {h : Heap} {o : Outline k h} {S : Assertion} {parse : Parse} {name : String}
  {line : Option Ref} {routine : Routine}

/-- The routine of a parse has a valid annotation with the given assertion at its entry. -/
theorem exists_valid (hS : k.Stable 0 S) (hparse : ∀ group ∈ parse, ∀ node ∈ group, node.Each o.fits)
    (hroutine : (lowerUnit h name line parse).1 = .ok routine)
    (htypes : k.code.types = routine.types) (hconstants : k.code.constants = routine.constants)
    (hhas : ∀ b ∈ routine.blocks, k.has b) :
    ∃ ann : Annotation, (∀ b ∈ routine.blocks, k.Valid ann b) ∧ ann routine.entry = S := by
  obtain ⟨tags, -, hparsed⟩ := lowerParse_run h line parse
  have hgroups : ∀ group ∈ parse.groups, ∀ node ∈ group, node.Each o.fits := by
    intro group hgroup node hnode
    obtain ⟨group', hgroup', hnode', -⟩ := Parse.mem_of_mem_groups hgroup hnode
    exact hparse group' hgroup' node hnode'
  unfold lowerUnit at hroutine
  rw [hparsed] at hroutine
  cases hrun : (lowerFrom h line parse.groups).run { tags } with
  | mk result d =>
  rw [hrun] at hroutine
  cases result with
  | error e => cases hroutine
  | ok entry =>
  cases hroutine
  unfold lowerFrom at hrun
  obtain ⟨⟨result, starts⟩, d₁, hrun₁, hrun⟩ := Lower.exists_of_run_bind hrun
  obtain ⟨hle₁, hstatements⟩ := between_lowerGroups hS hgroups hrun₁
  -- the register that is returned
  obtain ⟨r, d₂, hrun₂, hle₂, hfinal⟩ : ∃ r d₂, (liftM (closeRoutine r) >>= fun _ =>
      if 1 < starts.length then liftM (tableOfContents (starts.drop 1)) else pure ⟨0⟩ :
        Lower Label).run d₂ = (.ok entry, d) ∧ d₁.Below d₂ ∧
      k.Between (fun ann => ann ⟨0⟩ = S ∧ ∀ l ∈ starts, ann l = S) d₁ d₂ S
        fun ann => k.Here ann d₂ S := by
    cases result with
    | some r => exact ⟨r, d₁, hrun, .refl, .of_blocks rfl fun _ _ hhere => hhere⟩
    | none =>
      have hspares : k.Spares k.Done 0 [] [] Emit.nothing := inferInstance
      exact ⟨_, _, hrun, .of_emit Emit.nothing,
        (hspares.emits_stable (Nat.zero_le _) (by simp) hS).weaken_known (by simp)⟩
  obtain ⟨hwithin, hclose⟩ := between_closeRoutine hS hrun₂
  have hall : k.Between (fun ann => ∀ l ∈ [Label.mk 0], ann l = S) { tags } d S
      fun ann => ann entry = S :=
    hstatements.trans
      (hfinal.trans hclose (fun _ hknown hhere => ⟨hknown, hhere⟩) hle₂.nextLabel_le hwithin)
      (fun _ hknown hlearnt => ⟨⟨hknown _ List.mem_cons_self, hlearnt.1⟩, hlearnt.2⟩)
      hle₁.nextLabel_le (hle₂ _ hwithin)
  obtain ⟨fresh, hfresh⟩ := hall ⟨by rw [htypes], by rw [hconstants],
    fun b hb _ => hhas b (by simpa using hb)⟩
  obtain ⟨hblocks, hentry⟩ := hfresh (fun l => if l.index = 0 then S else fresh l) (by simp)
    (fun l hl _ => if_neg (Nat.ne_of_gt hl))
    ⟨fun _ _ _ hbody => absurd hbody.symm append_cons_ne_nil, fun w regs _ hw => hw⟩
  exact ⟨_, fun b hb => (hblocks b (by simpa using hb)).elim
    (fun hb => absurd hb (Array.not_mem_empty b)) id, hentry⟩

/-- **Lowered code keeps to an outline.** Along a run every helper is called as it should be, and
what must hold when the code returns does. -/
theorem sound (o : Outline k h) (hS : k.Stable 0 S)
    (hparse : ∀ group ∈ parse, ∀ node ∈ group, node.Each o.fits) (hcode : k.code.Renders h parse)
    (hhas : ∀ b, k.has b) {w : World} (hw : S w (initialRegisters k.code.types)) :
    (∀ c, Machine.Reaches k.re k.pins k.code k.block (Machine.start k.code w) c →
      ∀ i rest, c.rest = i :: rest → k.Ready i c.world c.regs) ∧
    ∀ r w', Machine.Returns k.re k.pins k.code k.block (Machine.start k.code w) r w' →
      k.returns w' := by
  obtain ⟨name, line, routine, backend, hroutine, hlink⟩ := hcode
  have hfollows := routine.follows_of_link hlink
  obtain ⟨ann, hvalid, hentry⟩ := exists_valid hS hparse hroutine hfollows.types hfollows.constants
    fun b _ => hhas b
  obtain ⟨hway, hreturns⟩ := Watch.sound hfollows hvalid (by rwa [hentry])
  refine ⟨fun c hreaches i rest hrest => ?_, hreturns⟩
  obtain ⟨b, -, hinside⟩ := hway c hreaches
  have halong := hinside.along
  rw [hrest] at halong
  exact halong.1

end Outline

end Watch

end LogoEngine
