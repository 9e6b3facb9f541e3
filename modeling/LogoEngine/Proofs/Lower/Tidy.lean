import LogoEngine.Proofs.Eval.Running
import LogoEngine.Proofs.Eval.Tidy
import LogoEngine.Proofs.Lower.Assertions
import LogoEngine.Proofs.Lower.Nodes

/-!
# Lowered code runs, stores and passes on data

Tokens, data and "no value" share one type of registers. In code that was lowered from nodes with
literals that are data, a register that is to be run, stored or passed on holds data all the same:
what a primitive says it returns, the cast its consumer inserts for that, and what its helper gives
agree. So the evaluator stays tidy along the code.

Main statement: `Linked.Tidy.tidy_of_reaches`.
-/

namespace LogoEngine

/-! ### What primitives return -/

namespace Generator

/-- How many inputs a generator needs, so that whatever it stores is one of them. -/
def stores : Generator → Nat
  | data op => op.stores
  | _ => 0

/-- Generators of code that leaves data, or is never left. -/
def yields : Generator → Bool
  | form | infixError | runResult | lastError | pos | towards => true
  | data op => !op.changes
  | _ => false

end Generator

/-- A primitive with a value on the heap says it may have none, or its code leaves data; and it has
all the inputs that it stores. -/
theorem Primitive.yields_of_mem {row : Primitive} (h : row ∈ table) :
    (row.generator.ty = .datum →
      row.returns.contains .nothing = true ∨ row.generator.yields = true) ∧
      row.generator.stores ≤ row.minInputs := by
  revert row
  decide +kernel

/-- A call of a user procedure has a name. -/
theorem Node.Tidy.named {h : Heap} {head : NodeHead} {inputs : List Node}
    (hnode : (Node.call head inputs).Tidy h) (hg : head.generator = .execProcedure) :
    h.Named head.ref := by
  cases hnode with
  | primitive name row _ hrow hgenerator =>
    exact absurd (hgenerator ▸ hg) (Primitive.find?_eq_some hrow).1.procedure
  | literal hgenerator => exact absurd (hgenerator.symm.trans hg) (by decide)
  | valueOf _ hgenerator => exact absurd (hgenerator.symm.trans hg) (by decide)
  | procedure _ _ hnamed => exact hnamed

namespace Watch

/-- A watch over what code runs, stores and passes on. The heap was `h` when the code was lowered. -/
class Tidying (k : Watch) (h : outParam Heap) : Prop where
  tidy : k.re.Tidy
  changes : k.re.Changes
  follows : ∀ {w w'}, k.follows w w' ↔ w.heap.Extends w'.heap ∧ w.StaysTidy w'
  ready : ∀ {helper args w}, k.ready helper args w ↔ helper.Fit w.heap args
  returns : ∀ {w}, k.returns w ↔ w.Tidy ∧ h.Extends w.heap
  divides : ∀ v, k.divides v
  counts : ∀ v, k.counts v
  equates : ∀ ann label a b, k.equates ann label a b
  ends : ∀ before args, k.ends before args

/-- Helpers that neither run nor store nor pass on what they are given. -/
@[reducible]
def modest : Helper → Bool
  | .runList | .runResult | .runProcedure | .continuationToken | .setVar | .data _ => false
  | _ => true

namespace Tidying

variable {k : Watch} {h : Heap} [hk : k.Tidying h]

include hk

theorem follows_callHelper {pins : Pins} {helper : Helper} {args : List Value} {w w' : World}
    {v : Value} (hfit : helper.Fit w.heap args)
    (hrun : callHelper k.re pins helper args w = .ok (v, w')) : k.follows w w' := by
  have := hk.tidy
  have := hk.changes
  exact hk.follows.mpr ⟨(Run.Changes.changes hrun).heap_extends,
    fun hw => (tidy_callHelper hw hfit hrun).1⟩

omit hk in
theorem fit_of_modest {helper : Helper} [hh : IsTrue (modest helper)] (h : Heap)
    (args : List Value) : helper.Fit h args := by
  have := hh.out
  cases helper <;> trivial

instance (helper : Helper) [IsTrue (modest helper)] : k.Calm helper :=
  ⟨fun _ => hk.ends, fun args w => hk.ready.mpr (fit_of_modest w.heap args), fun hrun =>
    follows_callHelper (fit_of_modest _ _) hrun⟩

instance : k.Ordinary where
  calm {helper} h := by
    have : IsTrue (modest helper) := ⟨by cases helper <;> first | rfl | cases h⟩
    infer_instance

instance : k.Lax :=
  ⟨hk.divides, hk.counts, hk.equates, fun _ => inferInstance, inferInstance, inferInstance⟩

/-! ### What registers hold -/

/-- A register holds data. -/
def Data : Reg → Draft → Assertion :=
  Holds fun w v => w.heap.isData v.asDatum = true

/-- A register holds data if another one holds a truth value. -/
def DataIf : Bool → Reg → Reg → Draft → Assertion :=
  Tells fun w v => w.heap.isData v.asDatum = true

theorem lasts_data (r : Reg) : k.Lasts (Data r) :=
  .holds (φ := fun w v => w.heap.isData v.asDatum = true)
    (fun hdata hfollows => (hk.follows.mp hfollows).1.isData hdata) r

theorem lasts_outcome (r : Reg) : k.Lasts (Holds (fun w v => w.IsOutcome v.asDatum) r) := by
  refine .holds (fun hv hfollows => ?_) r
  have hextends := (hk.follows.mp hfollows).1
  exact hv.imp hextends.isData hextends.isFlow

theorem lasts_dataIf (b : Bool) (r c : Reg) : k.Lasts (DataIf b r c) :=
  .tells (φ := fun w v => w.heap.isData v.asDatum = true)
    (fun hdata hfollows => (hk.follows.mp hfollows).1.isData hdata) b r c

section

open Emit

variable {α β : Type} {n : Nat} {known : Annotation → Prop} {d : Draft} {P H : Assertion}

/-- A helper is called with what it must be given. -/
theorem emits_call {helper : Helper} {rs : List Reg} (hP : k.Stable n P)
    (hH : ∀ w regs, H w regs → P w regs ∧ helper.Fit w.heap (rs.map (readReg regs))) :
    k.EmitsAbove n known (call helper rs) d H
      fun r d w regs => P w regs ∧ Holds helper.Outcome r d w regs := by
  have := hk.tidy
  refine .call hP.toKept (fun _ => hk.ends) (fun w regs hw => (hH w regs hw).imp_right hk.ready.mpr)
    fun {_ w regs _ _} hw hcall => ?_
  obtain ⟨hPw, hfit⟩ := hH w regs hw
  exact ⟨follows_callHelper hfit hcall,
    (tidy_callHelper (hk.returns.mp (hP.returns hPw)).1 hfit hcall).2⟩

/-- A helper that makes data if it is given what it must be. -/
theorem gives_call {pre : Draft → Assertion} {helper : Helper} {rs : List Reg}
    (hpre : ∀ d w regs, k.returns w → pre d w regs → helper.Fit w.heap (rs.map (readReg regs))) :
    k.Gives pre (liftM (call helper rs)) (Holds helper.Outcome) :=
  .lift fun hP hw => emits_call hP
    (fun w regs hPw => ⟨hPw, hpre _ w regs (hP.returns hPw) (hw w regs hPw)⟩) le_rfl

theorem gives_calling {pre : Draft → Assertion} {helper : Helper} {rs : List Reg}
    (hpre : ∀ d w regs, k.returns w → pre d w regs → helper.Fit w.heap (rs.map (readReg regs))) :
    k.Gives pre (liftM (call helper rs)) fun _ _ _ _ => True :=
  (gives_call hpre).mono (fun _ _ _ h => h) fun _ _ _ _ _ => trivial

theorem gives_modest {pre : Draft → Assertion} (helper : Helper) [IsTrue (modest helper)]
    (rs : List Reg) : k.Gives pre (liftM (call helper rs)) (Holds helper.Outcome) :=
  gives_call fun _ w _ _ _ => fit_of_modest w.heap _

theorem emits_hasTag {mask : Nat} {r : Reg} (hP : k.Stable n P)
    (hr : ∀ w regs, P w regs → r.index < d.types.size) :
    k.EmitsAbove n known (call (.hasTag mask) [r]) d P fun c d w regs => P w regs ∧
      c.index < d.types.size ∧
      (readReg regs c).asTruth = (w.heap.get (readReg regs r).asDatum).hasTag mask := by
  refine fun hn => Emits.mono (EmitsAbove.value hP.toKept (fun _ _ _ _ => trivial)
    (fun dst w regs hw => ⟨hw, hk.ready.mpr trivial⟩) (fun _ _ _ => rfl) hn)
    fun w regs _ hafter => ?_
  obtain ⟨hPw, hc, hsize, before, hbefore, hv, hothers⟩ := hafter
  refine ⟨hPw, by rw [hc, hsize]; exact Nat.lt_succ_self _, ?_⟩
  rw [hv, hothers r (Nat.ne_of_lt (hr w before hbefore))]
  rfl

/-- A register with a value of a kind of data. -/
theorem gives_hasTag {mask : Nat} (hmask : ∀ o : Object, o.hasTag mask = true → o.isData = true)
    (r : Reg) :
    k.Gives (fun d _ _ => r.index < d.types.size) (liftM (call (.hasTag mask) [r]))
      (DataIf true r) := by
  refine .lift fun {d _} hP hw => ((emits_hasTag hP hw) le_rfl).mono fun w regs _ hPw => ?_
  obtain ⟨hPw, hc, hcond⟩ := hPw
  refine ⟨hPw, hc, (hw w regs hPw).trans ?_, fun htrue => hmask _ (hcond.symm.trans htrue)⟩
  exact hc

/-- A register with data or a token. -/
theorem gives_isFlow (r : Reg) :
    k.Gives (Holds (fun w v => w.IsOutcome v.asDatum) r) (liftM (call (.hasTag flowMask) [r]))
      (DataIf false r) := by
  refine .lift fun {d _} hP hw =>
    ((emits_hasTag hP fun w regs hPw => (hw w regs hPw).1) le_rfl).mono fun w regs _ hPw => ?_
  obtain ⟨hPw, hc, hcond⟩ := hPw
  obtain ⟨hr, hv⟩ := hw w regs hPw
  refine ⟨hPw, hc, hr.trans hc, fun hfalse => hv.elim id fun hflow => ?_⟩
  have htag : (w.heap.get (readReg regs r).asDatum).hasTag flowMask = true := hflow
  rw [hcond, htag] at hfalse
  cases hfalse

/-! ### Ways out -/

theorem gives_passToken (r : Reg) :
    k.Gives (Holds (fun w v => w.IsOutcome v.asDatum) r) (liftM (passToken r))
      fun _ => Data r := by
  unfold passToken
  rw [liftM_bind]
  refine .bind (gives_isFlow r) (lasts_dataIf false r) fun c => ?_
  exact (Gives.returnWhen (lasts_data r)).mono (fun _ _ _ htells hcond =>
    ⟨htells.2.1, htells.2.2 hcond⟩) fun _ _ _ _ h => h

theorem gives_requireValue (who : Ref) (r : Reg) :
    k.Gives (fun d _ _ => r.index < d.types.size) (liftM (requireValue who r)) Data := by
  simp only [requireValue, liftM_bind, liftM_pure]
  refine .bind (gives_hasTag (fun _ h => h) r) (lasts_dataIf true r) fun c => ?_
  refine .bind gives_not (lasts_dataIf _ r) fun c' => ?_
  refine .bind ((Gives.returnWhen (lasts_data r)).mono (fun _ _ _ htells hcond =>
    ⟨htells.2.1, htells.2.2 hcond⟩) fun _ _ _ _ h => h) (fun _ => lasts_data r) fun _ => ?_
  exact .pure fun _ _ _ h => h

/-- A helper makes a token that the routine is left with. -/
theorem gives_leave {pre : Draft → Assertion} {post : β → Draft → Assertion} {helper : Helper}
    {rs : List Reg} {rest : Emit β} [Grows rest] (hrest : ∀ n, k.Spares k.Done n [] [] rest)
    (hpre : ∀ d w regs, k.returns w → pre d w regs → helper.Fit w.heap (rs.map (readReg regs))) :
    k.Gives pre (liftM (do
      let token ← call helper rs
      returnNow token
      rest)) post := by
  simp only [liftM_bind]
  refine .bind (gives_calling hpre) (fun _ => .true) fun token => ?_
  exact .bind (.returnNow token) (fun _ => .false) fun _ => .dead hrest fun _ _ _ h => h

theorem gives_error {pre : Draft → Assertion} {post : β → Draft → Assertion} {helper : Helper}
    [IsTrue (modest helper)] {rs : List Reg} {rest : Emit β} [Grows rest]
    (hrest : ∀ n, k.Spares k.Done n [] [] rest) :
    k.Gives pre (liftM (do
      let token ← call helper rs
      returnNow token
      rest)) post :=
  gives_leave hrest fun _ w _ _ _ => fit_of_modest w.heap _

/-- A variable with a value. -/
theorem gives_variableValue {pre : Draft → Assertion} (name : Ref) :
    k.Gives pre (liftM (variableValue name)) Data := by
  simp only [variableValue, liftM_bind, liftM_pure]
  refine .bind (Spares.gives fun _ => inferInstance) (fun _ => .true) fun nameReg => ?_
  refine .bind ((gives_modest .getVar [nameReg]).mono (fun _ _ _ h => h)
    fun _ _ _ _ hr => hr.1) .index fun r => ?_
  refine .bind (gives_hasTag (fun _ h => h) r) (lasts_dataIf true r) fun c => ?_
  refine .bind gives_not (lasts_dataIf _ r) fun c' => ?_
  refine .bind ((Gives.returnWhen (lasts_data r)).mono (fun _ _ _ htells hcond =>
    ⟨htells.2.1, htells.2.2 hcond⟩) fun _ _ _ _ h => h) (fun _ => lasts_data r) fun _ => ?_
  exact .pure fun _ _ _ h => h

/-! ### Checked inputs -/

/-- A retry loop is left with a value of one of the kinds. -/
theorem emits_datumOfKind {mask : Nat} (hmask : ∀ o : Object, o.hasTag mask = true → o.isData = true)
    (who : Ref) (src : Reg) (hP : k.Stable n P) :
    k.EmitsAbove n known (datumOfKind who mask src) d P
      fun r d w regs => P w regs ∧ Data r d w regs := by
  let A : Assertion := fun w regs =>
    P w regs ∧ w.heap.isData (readReg regs ⟨d.types.size⟩).asDatum = true
  have hsize : d.types.size < (datumOfKind who mask src d).2.types.size := lt_size_freshReg ..
  refine fun hn => Emits.mono (Q := fun _ _ => A) ?_ fun w regs _ hw => ⟨hw.1, hsize, hw.2⟩
  revert hn
  unfold datumOfKind retryDatum
  -- every label has the same assertion but the one that the loop is left for
  refine EmitsAbove.freshReg fun hn => .bind (.move hP.toKept hn) ?_
  refine .freshLabel P (.freshLabel P (.freshLabel P (.freshLabel P (.freshLabel P
    (.freshLabel A ?_)))))
  refine .bind (.jump fun ann hann => ⟨hann.1.1.1.1.1.2, hann.1.1.1.1.1.2⟩) ?_
  refine .bind (emits_hasTag hP fun _ _ _ => ?_) ?_
  · show d.types.size < (d.types.push _).size
    simp
  refine .bind (.branchOn (fun w regs hw hcond => ⟨hw.1, hmask _ (hw.2.2.symm.trans hcond)⟩)
    (fun w regs hw _ => hw.1) fun ann hann => ⟨hann.2, hann.1.1.1.1.2, hann.1.1.1.1.2⟩) ?_
  refine .bind (.askOrGiveUp hP.toKept fun ann hann => ⟨hann.1.1.1.2, hann.1.2⟩) ?_
  refine .bind (.of_stable hP) (.bind (.move hP.toKept hn) ?_)
  refine .bind (.branchOnData hP.toKept fun ann hann =>
    ⟨hann.1.1.1.1.1.2, hann.1.1.2, hann.1.1.2⟩) ?_
  refine .bind (.ret (fun _ _ => hP.returns) fun ann hann => hann.1.2) ?_
  exact .bind (.reject hP fun ann hann => hann.2) .pure

omit hk in
theorem isData_of_hasTag {mask : Nat} (hmask : mask = listMask ∨ mask = wordOrListMask)
    (o : Object) (h : o.hasTag mask = true) : o.isData = true := by
  unfold Object.isData Object.hasTag at *
  generalize o.kind = kind at *
  rcases hmask with rfl | rfl <;> cases kind <;> revert h <;> decide

/-! ### Code that runs lists -/

omit hk in
/-- What is given, and a register that holds data besides. -/
def WithData (given : Assertion) (r : Reg) : Assertion :=
  fun w regs => given w regs ∧ w.heap.isData (readReg regs r).asDatum = true

/-- A register that holds data by what is given. -/
class Ensures (given : Assertion) (r : Reg) : Prop where
  data : ∀ {w regs}, given w regs → w.heap.isData (readReg regs r).asDatum = true

variable {given : Assertion} {regs : List Reg} {labels : List Label}

omit hk in
instance (r : Reg) : Ensures (WithData given r) r :=
  ⟨fun hw => hw.2⟩

omit hk in
instance (r r' : Reg) [hr : Ensures given r] : Ensures (WithData given r') r :=
  ⟨fun hw => hr.data hw.1⟩

omit hk in
instance (r : Reg) [hgiven : k.Allows given] : k.Allows (WithData given r) :=
  ⟨fun hw => hgiven.returns hw.1⟩

instance (dst list : Reg) [hdst : Known dst regs] [hlist : Ensures given list] :
    k.Mild given regs (.call (some dst) .runList [list]) where
  asks _ _ _ := trivial
  ready hw := hk.ready.mpr (hlist.data hw)
  spares {w found found' w'} hw hrun := by
    obtain ⟨v, w₁, hcall, hrest⟩ := Run.bind_eq_ok hrun
    cases hrest
    have hfit : Helper.Fit w.heap .runList [readReg found list] := hlist.data hw
    exact ⟨follows_callHelper hfit hcall, fun r hr => readReg_writeReg_of_ne (hr dst hdst.mem)⟩

instance (list : Reg) [Ensures given list] : k.Spares given n regs labels (call .runList [list]) := by
  unfold call; infer_instance

instance (node : Ref) (list : Reg) [Ensures given list] :
    k.Spares given n regs labels (runOther node (some list)) := by
  unfold runOther; infer_instance

instance (node : Ref) : k.Spares given n regs labels (runOther node none) := by
  unfold runOther; infer_instance

/-- What can be run is data from then on. -/
theorem spares_runnable {who : Ref} {src : Reg} {f : Reg → Emit α} [hgiven : k.Allows given]
    (hf : ∀ n r, k.Spares (WithData given r) n [] [] (f r)) :
    k.Spares given n [] [] (runnable who src >>= f) :=
  have (r : Reg) := (hf n r).grows
  { emits {d P} hn _ hP hstrong := by
      have hP : k.Stable n P := ⟨hP, fun hw => hgiven.returns (hstrong _ _ hw)⟩
      have hsize : d.types.size ≤ (runnable who src d).2.types.size := by
        simpa using (Grows.types_prefix (runnable who src) d).length_le
      refine .bind (emits_datumOfKind (isData_of_hasTag (.inr rfl)) who src hP hn) ?_
      have hP' := (hP.mono (hn.trans hsize)).and (lasts_data (k := k) (runnable who src d).1)
      have hrest := (hf _ _).emits le_rfl (by simp) hP'.toKept
        fun w regs hw => ⟨hstrong w regs hw.1, hw.2.2⟩
      exact (hrest.weaken_known (by simp)).mono fun w regs _ hw => hw.1 }

instance (who : Ref) (src : Reg) (f : Reg → Emit α) [k.Allows given]
    [hf : ∀ n r, k.Spares (WithData given r) n [] [] (f r)] :
    k.Spares given n [] [] (runnable who src >>= f) :=
  spares_runnable hf

instance (who : Ref) (list : Reg) [k.Allows given] : k.Spares given n [] [] (run who list) := by
  unfold run; infer_instance

instance (who node : Ref) (tag list : Reg) [k.Allows given] :
    k.Spares given n [] [] (catching who node tag list) := by
  unfold catching; infer_instance

instance (wanted : Bool) (who node : Ref) (list : Reg) [k.Allows given] :
    k.Spares given n [] [] (ifTested wanted who node list) := by
  unfold ifTested
  refine spares_runnable fun _ _ => ?_
  repeat refine .bind inferInstance fun _ => ?_
  infer_instance

instance (who node : Ref) (times list : Reg) [k.Allows given] :
    k.Spares given n [] [] (repetition who node times list) := by
  unfold repetition
  refine .bind inferInstance fun _ => spares_runnable fun _ _ => .bind inferInstance fun _ => ?_
  refine .ownResult fun _ => .freshReg fun _ => ?_
  repeat first | refine .bind inferInstance fun _ => ?_ | refine .freshLabel fun _ => ?_
  infer_instance

instance (who node : Ref) (list : Reg) [k.Allows given] :
    k.Spares given n [] [] (forever who node list) := by
  unfold forever
  refine spares_runnable fun _ _ => .bind inferInstance fun _ => .freshReg fun _ => ?_
  repeat first | refine .bind inferInstance fun _ => ?_ | refine .freshLabel fun _ => ?_
  infer_instance

/-- A list used as a condition is data where it runs. -/
theorem emits_runIfList {who : Ref} {r : Reg} (hP : k.Stable n P)
    (hr : ∀ w regs, P w regs → r.index < d.types.size) :
    k.EmitsAbove n known (runIfList who r) d P fun _ _ => P := by
  let A : Assertion := fun w regs => P w regs ∧ w.heap.isData (readReg regs r).asDatum = true
  unfold runIfList
  refine EmitsAbove.freshReg fun hn => .bind (.move hP.toKept hn) ?_
  simp only [whenKind, bind_assoc, pure_bind]
  refine .bind (emits_hasTag hP fun w regs hw => (hr w regs hw).trans ?_) ?_
  · show d.types.size < (d.types.push _).size
    simp
  refine .freshLabel A (.freshLabel P ?_)
  refine .bind (.branchOn (fun w regs hw hcond =>
    ⟨hw.1, isData_of_hasTag (.inl rfl) _ (hw.2.2.symm.trans hcond)⟩) (fun w regs hw _ => hw.1)
    fun ann hann => ⟨hann.1.2, hann.2, hann.1.2⟩) ?_
  refine .bind (Q := fun _ _ => P) (fun hn =>
    (emits_call hP (fun w regs hw => hw) hn).mono fun _ _ _ hw => hw.1) ?_
  refine .bind (.of_stable hP) (.bind (.of_stable hP) ?_)
  exact .bind (.deliver hP.toKept hn fun ann hann => ⟨hann.2, hann.2⟩) .pure

theorem gives_condition (who : Ref) (r : Reg) :
    k.Gives (fun d _ _ => r.index < d.types.size) (liftM (condition who r))
      fun _ _ _ _ => True := by
  refine .lift fun {d P} hP hw => Emits.mono (Q := fun _ _ => P) ?_ fun _ _ _ h => ⟨h, trivial⟩
  refine .typeOf ?_
  cases d.types.getD r.index .datum with
  | truth => exact .pure
  | _ => exact EmitsAbove.bind (emits_runIfList hP hw) (.of_stable hP) le_rfl

theorem gives_conditional (who node : Ref) (cond yes : Reg) (no : Option Reg) :
    k.Gives (fun d _ _ => cond.index < d.types.size) (liftM (conditional who node cond yes no))
      fun _ _ _ _ => True := by
  cases no
  all_goals
    simp only [conditional, Option.mapM_none, Option.mapM_some, map_eq_pure_bind, bind_assoc,
      pure_bind]
    rw [liftM_bind]
    refine .bind (gives_condition who cond) (fun _ => .true) fun cond => Spares.gives fun _ => ?_
  · exact spares_runnable fun _ _ => inferInstance
  · exact spares_runnable fun _ _ => spares_runnable fun _ _ => inferInstance

theorem gives_test (who node : Ref) (cond : Reg) :
    k.Gives (fun d _ _ => cond.index < d.types.size) (liftM (test who node cond))
      fun _ _ _ _ => True := by
  unfold test
  rw [liftM_bind]
  exact .bind (gives_condition who cond) (fun _ => .true) fun cond => Spares.gives fun _ =>
    inferInstance

/-- The value of a list in a list. -/
theorem gives_runResult {pre : Draft → Assertion} (who : Ref) (list : Reg) :
    k.Gives pre (liftM (runResult who list)) Data := by
  simp only [runResult, liftM_bind, liftM_pure]
  have hrunnable : k.Gives pre (liftM (runnable who list)) Data :=
    .lift fun hP _ => emits_datumOfKind (isData_of_hasTag (.inr rfl)) who list hP le_rfl
  refine .bind hrunnable lasts_data fun list => ?_
  refine .bind (gives_call fun _ _ _ _ hlist => hlist.2) lasts_outcome fun r => ?_
  exact .bind (gives_passToken r) (fun _ => lasts_data r) fun _ => .pure fun _ _ _ h => h

/-! ### Casts -/

/-- A word that a native value became is used as it is, or the routine is left. -/
theorem gives_castBoxed (word : Reg) (who : Ref) (request : Request) :
    k.Gives (Data word) (liftM (castBoxed word who request)) Data := by
  unfold castBoxed
  split
  · rw [liftM_pure]
    exact .pure fun _ _ _ h => h
  · split
    · simp only [dislike, bind_assoc]
      rw [liftM_bind]
      exact .bind (Spares.gives fun _ => inferInstance) (fun _ => .true) fun name =>
        gives_error fun _ => inferInstance
    · exact gives_error fun _ => inferInstance

/-- What a cast gets and gives: data, unless no value is allowed. -/
def Owes (request : Request) (r : Reg) : Draft → Assertion :=
  fun d w regs => request.contains .nothing = true ∨ Data r d w regs

theorem lasts_owes (request : Request) (r : Reg) : k.Lasts (Owes request r) :=
  ⟨fun hle h => h.imp_right ((lasts_data (k := k) r).below hle),
    fun h hfollows hregs => h.imp_right fun h => (lasts_data (k := k) r).follows h hfollows hregs⟩

theorem gives_castDatum (src : Reg) (who : Ref) (produced request : Request) :
    k.Gives (fun d w regs => src.index < d.types.size ∧ Owes produced src d w regs)
      (liftM (castDatum src who produced request)) fun r d w regs =>
        request.castTy produced .datum = .datum → Owes request r d w regs := by
  unfold castDatum
  split
  · next hsame =>
    rw [liftM_pure]
    exact .pure fun _ _ _ h _ => hsame ▸ h.2
  split
  · split
    · next hasked =>
      rw [liftM_pure]
      exact .pure fun _ _ _ _ _ => .inl hasked
    · rw [liftM_bind]
      exact .bind (Spares.gives fun _ => inferInstance) (fun _ => .true) fun name =>
        gives_error fun _ => inferInstance
  split
  · next hproduced =>
    subst hproduced
    rw [liftM_bind]
    refine .bind_and (m := liftM (passToken src)) (Spares.gives fun _ => inferInstance)
      ((Lasts.index src).and (lasts_owes _ src)) (fun _ => .true) fun _ => ?_
    split
    · next hrequest =>
      subst hrequest
      exact (Spares.gives fun _ => inferInstance).mono (fun _ _ _ h => h)
        fun _ _ _ _ _ _ => .inl rfl
    split
    · split
      · next hasked =>
        rw [liftM_pure]
        exact .pure fun _ _ _ _ _ => .inl hasked
      · exact (gives_requireValue who src).mono (fun _ _ _ h => h.1.1)
          fun _ _ _ _ h _ => .inr h
    · next hnothing hdatum =>
      -- no request that comes here has its casts give a datum
      refine (Spares.gives fun _ => inferInstance).mono (fun _ _ _ h => h) fun _ _ _ _ _ hty => ?_
      exfalso
      revert hnothing hdatum hty
      cases request <;> decide
  · next hsame hnothing hmaybe =>
    split
    · rw [liftM_pure]
      refine .pure fun _ _ _ h _ => .inr (h.2.resolve_left fun hlacks => ?_)
      revert hlacks hnothing hmaybe
      cases produced <;> decide
    split
    · exact gives_error fun _ => inferInstance
    · next hdatum hasked =>
      -- what is left asks for a native value, which is no datum
      refine (Spares.gives fun _ => inferInstance).mono (fun _ _ _ h => h) fun _ _ _ _ _ hty => ?_
      exfalso
      revert hsame hnothing hdatum hasked hty
      cases request <;> cases produced <;> decide

theorem gives_castAs (src : Reg) (ty : Ty) (who : Ref) (produced request : Request) :
    k.Gives (fun d w regs => Declares d.types src ty ∧ (ty = .datum → Owes produced src d w regs))
      (liftM (castAs ty src who produced request)) fun r d w regs =>
        request.castTy produced ty = .datum → Owes request r d w regs := by
  cases ty with
  | real =>
    dsimp only [castAs]
    split
    · next hasked =>
      rw [liftM_pure]
      refine .pure fun _ _ _ _ hty => ?_
      rw [(Request.castTy_of_real hasked produced).1] at hty
      cases hty
    · rw [liftM_bind]
      exact .bind (gives_modest .wordFromReal [src]) lasts_data fun word =>
        (gives_castBoxed word who request).mono (fun _ _ _ h => h) fun _ _ _ _ h _ => .inr h
  | truth =>
    dsimp only [castAs]
    split
    · next hasked =>
      rw [liftM_pure]
      refine .pure fun _ _ _ _ hty => ?_
      rw [(Request.castTy_of_truth hasked produced).1] at hty
      cases hty
    · rw [liftM_bind]
      exact .bind (gives_modest .wordFromTruth [src]) lasts_data fun word =>
        (gives_castBoxed word who request).mono (fun _ _ _ h => h) fun _ _ _ _ h _ => .inr h
  | datum =>
    exact (gives_castDatum src who produced request).mono
      (fun _ _ _ h => ⟨h.1.lt_size, h.2 rfl⟩) fun _ _ _ _ h => h

/-- **Casts** give data where data are asked for, if they get what the node said it returns. -/
theorem gives_cast {src : Reg} {ty : Ty} (who : Ref) (produced request : Request) :
    k.Gives (fun d w regs => Declares d.types src ty ∧ (ty = .datum → Owes produced src d w regs))
      (liftM (cast src who produced request)) fun r d w regs =>
        Declares d.types r (request.castTy produced ty) ∧
          (request.castTy produced ty = .datum → Owes request r d w regs) := by
  refine .lift fun {d P} hP hw => ?_
  by_cases hsome : ∃ w regs, P w regs
  · obtain ⟨w, regs, hPw⟩ := hsome
    have hsrc := (hw w regs hPw).1
    have hemits : k.Emits (fun _ => True) (cast src who produced request) d P fun r d w regs =>
        P w regs ∧ (request.castTy produced ty = .datum → Owes request r d w regs) := by
      unfold Emits
      rw [cast_run hsrc]
      exact (gives_castAs src ty who produced request).lowers hP hw _ _ rfl
    exact hemits.mono fun w regs _ hPw => ⟨hPw.1, (cast_spec hsrc).result, hPw.2⟩
  -- nothing leads here
  · have hspares : k.Spares k.Done d.types.size [] [] (cast src who produced request) :=
      inferInstance
    exact ((hspares.emits_stable le_rfl (by simp) hP).weaken_known (by simp)).mono
      fun w regs _ hPw => (hsome ⟨w, regs, hPw⟩).elim

/-! ### Data, variables and calls -/

variable {pre : Draft → Assertion}

theorem gives_ask {helper : Helper} {rs : List Reg}
    (hfit : ∀ d w regs, k.returns w → pre d w regs → helper.Fit w.heap (rs.map (readReg regs))) :
    k.Gives pre (liftM (ask helper rs)) fun _ _ _ _ => True := by
  unfold ask
  rw [liftM_bind]
  exact .bind (gives_calling hfit) (fun _ => .true) fun r => Spares.gives fun _ => inferInstance

/-- A helper that makes data. -/
theorem gives_ask_data {helper : Helper} {rs : List Reg}
    (hfit : ∀ d w regs, k.returns w → pre d w regs → helper.Fit w.heap (rs.map (readReg regs)))
    (hmakes : ∀ w v, helper.Outcome w v → w.IsOutcome v.asDatum) :
    k.Gives pre (liftM (ask helper rs)) Data := by
  simp only [ask, liftM_bind, liftM_pure]
  refine .bind ((gives_call hfit).mono (fun _ _ _ h => h) fun _ _ _ _ h =>
    ⟨h.1, hmakes _ _ h.2⟩) lasts_outcome fun r => ?_
  exact .bind (gives_passToken r) (fun _ => lasts_data r) fun _ => .pure fun _ _ _ h => h

omit hk in
theorem gives_askWithNode {helper : Helper} {node : Ref} {rs : List Reg}
    {post : Reg → Draft → Assertion} (hpre : k.Lasts pre)
    (h : ∀ self, k.Gives pre (liftM (ask helper (self :: rs))) post) :
    k.Gives pre (liftM (askWithNode helper node rs)) post := by
  unfold askWithNode
  rw [liftM_bind]
  exact .bind_and (Spares.gives fun _ => inferInstance) hpre (fun _ => .true) fun self =>
    (h self).mono (fun _ _ _ h => h.1) fun _ _ _ _ h => h

/-- All of some registers hold data. -/
def AllData (rs : List Reg) : Draft → Assertion :=
  fun d w regs => ∀ r ∈ rs, Data r d w regs

theorem lasts_allData (rs : List Reg) : k.Lasts (AllData rs) :=
  ⟨fun hle h r hr => (lasts_data (k := k) r).below hle (h r hr),
    fun h hfollows hregs r hr => (lasts_data (k := k) r).follows (h r hr) hfollows hregs⟩

omit hk in
theorem AllData.forall_mem {rs : List Reg} {w : World} {found : Array Value}
    (h : AllData rs d w found) :
    ∀ r ∈ (rs.map (readReg found)).map Value.asDatum, w.heap.isData r = true := by
  simpa using fun r hr => (h r hr).2

theorem gives_procedureCall {node : Ref} {rs : List Reg} (hnode : h.Named node) :
    k.Gives (AllData rs) (liftM (procedureCall node rs)) fun _ _ _ _ => True := by
  unfold procedureCall
  rw [liftM_bind]
  refine .bind_and (.const node) (lasts_allData rs) (.holds fun hv _ => hv) fun self => ?_
  refine gives_calling fun d w found hreturns hw => ⟨?_, hw.1.forall_mem⟩
  show w.heap.Named (readReg found self).asDatum
  rw [hw.2.2]
  exact (hk.returns.mp hreturns).2.named hnode

omit hk in
theorem fit_data {op : DataOp} {self : Reg} {rs : List Reg} {w : World} {found : Array Value}
    (h : op.stores ≤ rs.length ∧ AllData rs d w found) :
    Helper.Fit w.heap (.data op) ((self :: rs).map (readReg found)) :=
  ⟨h.2.forall_mem, by simpa [restArgs] using h.1⟩

theorem lasts_dataInputs (count : Nat) (rs : List Reg) :
    k.Lasts fun d w regs => count ≤ rs.length ∧ AllData rs d w regs :=
  .and ⟨fun _ h => h, fun h _ _ => h⟩ (lasts_allData rs)

theorem gives_data {op : DataOp} {node : Ref} {rs : List Reg} :
    k.Gives (fun d w regs => op.stores ≤ rs.length ∧ AllData rs d w regs)
      (liftM (askWithNode (.data op) node rs)) fun _ _ _ _ => True :=
  gives_askWithNode (lasts_dataInputs _ rs) fun _ => gives_ask fun _ _ _ _ hw => fit_data hw

theorem gives_assign {who node : Ref} {name value : Reg} :
    k.Gives (Data value) (liftM (assign who node name value)) fun _ _ _ _ => True := by
  unfold assign
  rw [liftM_bind]
  refine .bind_and (Spares.gives fun _ => inferInstance) (lasts_data value) (fun _ => .true)
    fun name => ?_
  have hask : k.Gives (Data value) (liftM (askWithNode .setVar node [name, value]))
      fun _ _ _ _ => True :=
    gives_askWithNode (lasts_data value) fun self => gives_ask fun _ _ _ _ hw => hw.2
  exact hask.mono (fun _ _ _ h => h.1) fun _ _ _ _ h => h

/-! ### Nodes -/

/-- What is known of an input that was cast. -/
def Cast (request : Request) (r : Reg) : Draft → Assertion :=
  fun d w regs => ∃ ty, Declares d.types r ty ∧ (request = .datum → ty = .datum) ∧
    (ty = .datum → Owes request r d w regs)

theorem lasts_cast (request : Request) (r : Reg) : k.Lasts (Cast request r) :=
  ⟨fun hle ⟨ty, hr, hasked, howes⟩ => ⟨ty, hr.mono hle.types, hasked, fun hty =>
      (lasts_owes (k := k) request r).below hle (howes hty)⟩,
    fun ⟨ty, hr, hasked, howes⟩ hfollows hregs => ⟨ty, hr, hasked, fun hty =>
      (lasts_owes (k := k) request r).follows (howes hty) hfollows hregs⟩⟩

theorem lasts_castAll (rs : List Reg) :
    k.Lasts fun d w regs => ∀ r ∈ rs, Cast .datum r d w regs :=
  ⟨fun hle h r hr => (lasts_cast (k := k) .datum r).below hle (h r hr),
    fun h hfollows hregs r hr => (lasts_cast (k := k) .datum r).follows (h r hr) hfollows hregs⟩

section

variable {w : World} {found : Array Value} {r : Reg}

omit hk in
theorem Cast.lt_size {request : Request} (h : Cast request r d w found) :
    r.index < d.types.size := by
  obtain ⟨ty, hr, -, -⟩ := h
  exact hr.lt_size

omit hk in
theorem Cast.data (h : Cast .datum r d w found) : Data r d w found := by
  obtain ⟨ty, -, hty, howes⟩ := h
  exact (howes (hty rfl)).resolve_left (by decide)

/-- What is known of the inputs of a node. -/
abbrev Given (head : NodeHead) (inputs : List Node) (rs : List Reg) : Draft → Assertion :=
  fun d w regs => List.Forall₂ (fun p r => Cast p.2 r d w regs)
    (inputs.zip (head.generator.requests inputs.length)) rs

end

variable {head : NodeHead} {inputs : List Node} {rs : List Reg}

omit hk in
/-- Inputs of a node that asks for data. -/
theorem Given.allData (hasked : head.generator.requests inputs.length =
    List.replicate inputs.length .datum) {w : World} {found : Array Value}
    (h : Given head inputs rs d w found) : rs.length = inputs.length ∧ AllData rs d w found := by
  unfold Given at h
  rw [hasked] at h
  have hlength : rs.length = inputs.length := by simpa using h.length_eq.symm
  refine ⟨hlength, fun r hr => ?_⟩
  obtain ⟨i, hi, rfl⟩ := List.getElem_of_mem hr
  have hinput := h.get (h.length_eq ▸ hi) hi
  exact Cast.data (by simpa using hinput)

omit hk in
theorem Given.lt_size {w : World} {found : Array Value} {r : Reg}
    (h : Given head inputs rs d w found) (hr : r ∈ rs) : r.index < d.types.size := by
  obtain ⟨p, -, hcast⟩ := exists_mem_of_forall₂ h.flip hr
  exact Cast.lt_size hcast

/-- The code of a node calls helpers with what they must be given. -/
theorem gives_emitNode (hnode : (Node.call head inputs).Tidy h)
    (hstores : head.generator.stores ≤ inputs.length) :
    k.Gives (Given head inputs rs) (emitNode h head rs) fun _ _ _ _ => True := by
  fun_cases emitNode h head rs
  all_goals try first | exact Spares.gives fun _ => inferInstance | exact .throw
  · next hg =>
    have hasked : head.generator.requests inputs.length = List.replicate inputs.length .datum := by
      rw [hg]; rfl
    refine (gives_procedureCall (hnode.named hg)).mono
      (fun _ _ _ hw => (hw.allData hasked).2) fun _ _ _ _ h => h
  · exact (gives_runResult _ _).mono (fun _ _ _ h => h) fun _ _ _ _ _ => trivial
  · exact (gives_conditional ..).mono (fun _ _ _ hw => hw.lt_size List.mem_cons_self)
      fun _ _ _ _ h => h
  · exact (gives_conditional ..).mono (fun _ _ _ hw => hw.lt_size List.mem_cons_self)
      fun _ _ _ _ h => h
  · exact (gives_test ..).mono (fun _ _ _ hw => hw.lt_size List.mem_cons_self)
      fun _ _ _ _ h => h
  · next hg =>
    have hasked : head.generator.requests inputs.length = List.replicate inputs.length .datum := by
      rw [hg]; rfl
    rw [hg] at hstores
    exact gives_data.mono (fun _ _ _ hw =>
      ⟨hstores.trans_eq (hw.allData hasked).1.symm, (hw.allData hasked).2⟩) fun _ _ _ _ h => h
  · next hg =>
    have hasked : head.generator.requests inputs.length = List.replicate inputs.length .datum := by
      rw [hg]; rfl
    exact gives_assign.mono (fun _ _ _ hw => (hw.allData hasked).2 _ (by simp)) fun _ _ _ _ h => h

/-- The code of a node that yields data leaves data. -/
theorem gives_emitNode_data (hyields : head.generator.yields = true)
    (hstores : head.generator.stores ≤ inputs.length) :
    k.Gives (Given head inputs rs) (emitNode h head rs) Data := by
  fun_cases emitNode h head rs
  all_goals try first | exact .throw | (next hg => rw [hg] at hyields; cases hyields)
  · simp only [form, liftM_bind]
    exact .bind (Spares.gives fun _ => inferInstance) (fun _ => .true) fun width =>
      .bind (Spares.gives fun _ => inferInstance) (fun _ => .true) fun places =>
        gives_modest .form _
  · unfold infixFault
    rw [liftM_bind]
    exact .bind (Spares.gives fun _ => inferInstance) (fun _ => .true) fun name =>
      gives_error fun _ => inferInstance
  · exact gives_runResult _ _
  · exact gives_modest .errorList []
  · next op hg =>
    have hasked : head.generator.requests inputs.length = List.replicate inputs.length .datum := by
      rw [hg]; rfl
    rw [hg] at hstores hyields
    have hop : op.changes = false := by simpa [Generator.yields] using hyields
    refine (gives_askWithNode (lasts_dataInputs _ _) fun _ => gives_ask_data
      (fun _ _ _ _ hw => fit_data hw) fun _ _ h => h hop).mono
      (fun _ _ _ hw => ?_) fun _ _ _ _ h => h
    exact ⟨hstores.trans_eq (hw.allData hasked).1.symm, (hw.allData hasked).2⟩
  · exact gives_modest .pos []
  · exact Gives.of_true (gives_askWithNode .true fun _ => gives_ask_data
      (fun _ w _ _ _ => fit_of_modest w.heap _) fun _ _ h => h)

omit hk in
/-- A single summand or factor is handed through. -/
theorem gives_fold {step : Reg → Reg → Emit Reg} [∀ a b, Grows (step a b)]
    [∀ n a b, k.Spares k.Done n [] [] (step a b)] {input : Node} (identity : Float)
    (hasked : head.generator.requests 1 = [.real]) :
    k.Gives (Given head [input] rs) (liftM (fold step identity rs)) (Cast .real) := by
  unfold Given
  rw [List.length_singleton, hasked]
  cases rs with
  | nil => exact .dead (fun _ => inferInstance) fun _ _ _ hw => by cases hw
  | cons r rest =>
    cases rest with
    | nil =>
      rw [fold, List.foldlM_nil, liftM_pure]
      exact .pure fun _ _ _ hw => (List.forall₂_cons.mp hw).1
    | cons r' rest =>
      exact .dead (fun _ => inferInstance) fun _ _ _ hw => by cases (List.forall₂_cons.mp hw).2

omit hk in
theorem gives_emitNode_fold (hfolds : head.generator.folds = true) {input : Node} :
    k.Gives (Given head [input] rs) (emitNode h head rs) (Cast .real) := by
  fun_cases emitNode h head rs
  all_goals try first | exact .throw | (next hg => rw [hg] at hfolds; cases hfolds)
  · next hg => exact gives_fold _ (by rw [hg]; rfl)
  · next hg => exact gives_fold _ (by rw [hg]; rfl)

/-! ### The outline -/

/-- What is known of the register that the code of a node leaves. -/
def Returned (h : Heap) (node : Node) (request : Request) (r : Reg) : Draft → Assertion :=
  fun d w regs => Declares d.types r .datum → node.rawTy h request = .datum →
    Owes node.returns r d w regs

omit hk in
theorem Data.returned {h : Heap} {node : Node} {request : Request} {r : Reg} {w : World}
    {found : Array Value} (hr : Data r d w found) : Returned h node request r d w found :=
  fun _ _ => .inr hr

theorem gives_const_data {c : Ref} (hc : h.isData c = true) :
    k.Gives pre (liftM (const c)) Data :=
  (Gives.const c).and_returns.mono (fun _ _ _ h => h) fun _ _ _ _ ⟨hreturns, hr, hv⟩ =>
    ⟨hr, by rw [hv]; exact (hk.returns.mp hreturns).2.isData hc⟩

/-- The code of a literal that is data. -/
theorem gives_emitLiteral {value : Ref} (hgenerator : head.generator = .literal)
    (hvalue : h.isData value = true) (request : Request) :
    k.Gives pre (liftM (emitLiteral h value request))
      (Returned h (.call head [.datum value]) request) := by
  have hraw : (Node.call head [.datum value]).rawTy h request = literalTy h value request := by
    rw [Node.rawTy.eq_def]
    simp only [arityFault?, hgenerator]
    rfl
  by_cases hty : literalTy h value request = .datum
  · have hconst : emitLiteral h value request = const value := by
      clear hraw
      unfold emitLiteral literalTy at *
      generalize h.number? value = number at *
      generalize h.truth? value = truth at *
      cases request <;> cases number <;> cases truth <;> first | rfl | cases hty
    rw [hconst]
    exact (gives_const_data hvalue).mono (fun _ _ _ h => h) fun _ _ _ _ h => h.returned
  · exact (Spares.gives fun _ => inferInstance).mono (fun _ _ _ h => h)
      fun _ _ _ _ _ _ hdatum => absurd (hraw.symm.trans hdatum) hty

omit hk in
/-- The type of what a generator leaves, unless that is one of its inputs. -/
theorem rawTy_eq_ty (hfault : arityFault? h head inputs.length = none)
    (hliteral : head.generator ≠ .literal)
    (hfolds : head.generator.folds = false ∨ inputs.length ≠ 1) (request : Request) :
    (Node.call head inputs).rawTy h request = head.generator.ty := by
  rw [Node.rawTy.eq_def]
  simp only [hfault]
  split
  · next hg => exact absurd hg hliteral
  · next hg => simp [hg, Generator.folds] at hfolds
  · next hg => simp [hg, Generator.folds] at hfolds
  · rfl

theorem gives_emitNode_returned (hnode : (Node.call head inputs).Tidy h)
    (hfault : arityFault? h head inputs.length = none)
    (hspecial : head.generator.isSpecial = false) (request : Request) :
    k.Gives (Given head inputs rs) (emitNode h head rs)
      (Returned h (.call head inputs) request) := by
  have hnode' := hnode
  cases hnode with
  | literal hgenerator | valueOf _ hgenerator =>
    rw [hgenerator] at hspecial
    cases hspecial
  | procedure hgenerator hreturns hnamed hinputs =>
    refine (gives_emitNode hnode' (by simp [hgenerator, Generator.stores])).mono
      (fun _ _ _ h => h) fun _ _ _ _ _ _ _ => .inl ?_
    rw [Node.returns, hreturns]
    decide
  | primitive name row hname hrow hgenerator hreturns hinputs =>
    obtain ⟨hyields, hstores⟩ := Primitive.yields_of_mem (Primitive.mem_of_find? hrow)
    rw [← hgenerator] at hyields hstores
    rw [← hreturns] at hyields
    replace hstores := hstores.trans (bounds_of_arityFault? hname hrow hgenerator hfault).1
    by_cases hfold : head.generator.folds = true ∧ inputs.length = 1
    · obtain ⟨input, rfl⟩ := List.length_eq_one_iff.mp hfold.2
      refine (gives_emitNode_fold hfold.1).mono (fun _ _ _ h => h) fun r d w found hcast hr _ => ?_
      obtain ⟨ty, hty, -, howes⟩ := hcast
      exact .inr ((howes (hty.unique hr)).resolve_left (by decide))
    · have hraw := rawTy_eq_ty hfault (fun hg => by rw [hg] at hspecial; cases hspecial)
        (by rw [← Bool.not_eq_true]; exact not_and_or.mp hfold) request
      by_cases hdata : head.generator.yields = true
      · exact (gives_emitNode_data hdata hstores).mono (fun _ _ _ h => h) fun _ _ _ _ h => h.returned
      · exact (gives_emitNode hnode' hstores).mono (fun _ _ _ h => h) fun _ _ _ _ _ _ hty =>
          .inl ((hyields (hraw ▸ hty)).resolve_right hdata)

omit hk in
theorem modest_of_arityFault? {helper : Helper} {count : Nat}
    (hfault : arityFault? h head count = some helper) : IsTrue (modest helper) := by
  unfold arityFault? at hfault
  repeat' split at hfault
  all_goals cases hfault
  all_goals exact ⟨rfl⟩

/-- **The outline.** A register that a node leaves holds data, or the node says it may return none. -/
def outline (k : Watch) (h : Heap) [k.Tidying h] : k.Outline h where
  fits head inputs := (Node.call head inputs).Tidy h
  typed node request r d := Declares d.types r (node.rawTy h request)
  value := Returned h
  input := Cast
  typed_run {node request d r d'} hnode hrun := by
    cases hnode with
    | datum r =>
      rw [lowerNode] at hrun
      cases hrun
    | call hfits hinputs =>
      obtain ⟨a, d₁, hrun', -, hdeclares, -⟩ := hfits.built.lowers request d
      cases hrun.symm.trans hrun'
      exact hdeclares
  value_lasts node request r :=
    ⟨fun hle ⟨htyped, hvalue⟩ => ⟨htyped.mono hle.types, fun _ hty =>
        (lasts_owes (k := k) _ r).below hle (hvalue (hty ▸ htyped) hty)⟩,
      fun ⟨htyped, hvalue⟩ hfollows hregs => ⟨htyped, fun hr hty =>
        (lasts_owes (k := k) _ r).follows (hvalue hr hty) hfollows hregs⟩⟩
  input_lasts := lasts_cast
  cast {node} who request r _ :=
    (gives_cast who node.returns request).mono (fun _ _ _ hw => ⟨hw.1, fun hty =>
      hw.2 (hty ▸ hw.1) hty⟩) fun _ _ _ _ hw => ⟨_, hw.1, fun hasked => by subst hasked; rfl, hw.2⟩
  condition who r := (gives_condition who r).mono (fun _ _ _ hw => hw.lt_size) fun _ _ _ _ h => h
  fault {head inputs helper} request _ hfault := by
    have : IsTrue (modest helper) := modest_of_arityFault? hfault
    unfold emitArityFault
    rw [liftM_bind]
    exact .bind (Spares.gives fun _ => inferInstance) (fun _ => .true) fun name =>
      gives_error fun _ => inferInstance
  literal {head node rest} request hfits hgenerator := by
    cases hfits with
    | literal _ _ hvalue => exact gives_emitLiteral hgenerator hvalue request
    | primitive _ _ _ hrow hg =>
      exact absurd (hg ▸ hgenerator) (Primitive.find?_eq_some hrow).1.literal
    | valueOf _ hg => cases hg.symm.trans hgenerator
    | procedure hg => cases hg.symm.trans hgenerator
  valueOf _ _ _ := (gives_variableValue _).mono (fun _ _ _ h => h) fun _ _ _ _ h => h.returned
  choice {head inputs} request r d w regs _ hfault hchoice := by
    have hraw := rawTy_eq_ty hfault (by rintro hg; simp [hg] at hchoice)
      (.inl (by rcases hchoice with hg | hg <;> rw [hg] <;> rfl)) request
    intro _ hty
    rw [hraw] at hty
    rcases hchoice with hg | hg <;> rw [hg] at hty <;> cases hty
  emit request hfits hfault hspecial := gives_emitNode_returned hfits hfault hspecial request
  leave self r request _ _ := by
    unfold leaveWith
    exact gives_error fun _ => inferInstance
  tail {head inputs asked callee args rs} self request _ _ hcallee hcall := by
    refine .bind_and (.const callee.ref) (lasts_castAll rs) (.holds fun hv _ => hv) fun target => ?_
    unfold leaveWith
    refine gives_leave (fun _ => inferInstance) fun d w found hreturns hw =>
      ⟨?_, AllData.forall_mem fun r hr => (hw.1 r hr).data⟩
    show w.heap.Named (readReg found target).asDatum
    rw [hw.2.2]
    exact (Tidying.returns.mp hreturns).2.named (hcallee.named hcall)

end

end Tidying

end Watch

/-! ### Whole routines -/

theorem Node.Tidy.each {h : Heap} {node : Node} (hnode : node.Tidy h) :
    node.Each fun head inputs => (Node.call head inputs).Tidy h := by
  have hdatum (r : Ref) : ∀ input ∈ [Node.datum r],
      input.Each fun head inputs => (Node.call head inputs).Tidy h :=
    List.forall_mem_singleton.mpr (.datum r)
  induction hnode with
  | primitive name row hname hrow hgenerator hreturns hinputs ih =>
    exact .call (.primitive name row hname hrow hgenerator hreturns hinputs) ih
  | literal hgenerator hreturns hvalue => exact .call (.literal hgenerator hreturns hvalue) (hdatum _)
  | valueOf subject hgenerator hreturns =>
    exact .call (.valueOf subject hgenerator hreturns) (hdatum subject)
  | procedure hgenerator hreturns hnamed hinputs ih =>
    exact .call (.procedure hgenerator hreturns hnamed hinputs) ih

section

variable {re : Reenter} [hre : re.Tidy] {pins : Pins} {code : Linked} {block : Int}

/-- The next instruction gives its helper what the helper must be given. -/
def Config.Fit (c : Config) : Prop :=
  ∀ dst helper args rest, c.rest = .call dst helper args :: rest →
    helper.Fit c.world.heap (args.map (readReg c.regs))

/-- One step leaves a tidy evaluator tidy. -/
theorem World.Tidy.step {c : Config} {o : Machine.Outcome} (hw : c.world.Tidy) (hfit : c.Fit)
    (hstep : Machine.step re pins code block c = .ok o) : o.world.Tidy := by
  unfold Machine.step at hstep
  split at hstep
  · next i rest hrest =>
    split at hstep
    · next regs w hrun =>
      cases hstep
      unfold runInstr at hrun
      cases i with
      | call dst helper args =>
        obtain ⟨out, w₁, hcall, hwrite⟩ := Run.bind_eq_ok hrun
        have hw₁ := (tidy_callHelper hw (hfit dst helper args rest hrest) hcall).1
        cases dst <;> cases hwrite <;> exact hw₁
      | _ =>
        cases hrun
        exact hw
    · cases hstep
  · cases hstep
    rw [Machine.world_leave]
    exact hw

/-- **Lowered code runs, stores and passes on data**, if its literals are data. Along every run the
evaluator stays tidy, and helpers are given what they must be. -/
theorem Linked.Tidy.tidy_of_reaches [re.Changes] {w : World} (hcode : code.Tidy w.heap)
    (hw : w.Tidy) :
    (∀ c, Machine.Reaches re pins code block (Machine.start code w) c → c.world.Tidy ∧ c.Fit) ∧
    ∀ r w', Machine.Returns re pins code block (Machine.start code w) r w' → w'.Tidy := by
  obtain ⟨h, parse, hh, hparse, hrenders⟩ := hcode
  let k : Watch :=
    { re, pins, code, block
      follows := fun w w' => w.heap.Extends w'.heap ∧ w.StaysTidy w'
      ready := fun helper args w => helper.Fit w.heap args
      returns := fun w => w.Tidy ∧ h.Extends w.heap
      refl := fun w => ⟨.refl w.heap, id⟩
      trans := fun hfirst hthen => ⟨hfirst.1.trans hthen.1, fun hw => hthen.2 (hfirst.2 hw)⟩ }
  have htidying : k.Tidying h := 
    ⟨hre, ‹_›, .rfl, .rfl, .rfl, fun _ => trivial, fun _ => trivial, fun _ _ _ _ => trivial,
      fun _ _ => trivial⟩
  have hstable : k.Stable 0 fun w _ => w.Tidy ∧ h.Extends w.heap :=
    ⟨⟨fun hw hfollows _ => ⟨hfollows.2 hw.1, hw.2.trans hfollows.1⟩⟩, id⟩
  obtain ⟨hready, hreturns⟩ := (Watch.Tidying.outline k h).sound hstable
    (fun group hgroup node hnode => (hparse group hgroup node hnode).each) hrenders
    (fun _ => trivial) ⟨hw, hh⟩
  have hfit : ∀ c, Machine.Reaches re pins code block (Machine.start code w) c → c.Fit :=
    fun c hreaches dst helper args rest hrest => hready c hreaches _ rest hrest
  refine ⟨fun c hreaches => ⟨?_, hfit c hreaches⟩, fun r w' h => (hreturns r w' h).1⟩
  induction hreaches with
  | refl => exact hw
  | tail hreaches hlast ih => exact ih.step (hfit _ hreaches) hlast

end

end LogoEngine
