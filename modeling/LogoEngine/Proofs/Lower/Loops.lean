import LogoEngine.Proofs.Eval.Quiet
import LogoEngine.Proofs.Lower.Assertions

/-!
# Loops put the number of repetitions back

Code that a parse was lowered to leaves the number of repetitions as it found it, if whatever it
runs does. Only `REPEAT` and `FOREVER` set the number: within the loop a register holds the number
from before it, and every way out of the loop puts that number back.

Main statement: `Linked.Lowered.steady_of_returns`.
-/

namespace LogoEngine

/-- If all code in the cache was lowered it still is, and the number of repetitions is the same. -/
def World.Steady (w w' : World) : Prop :=
  w.Compiled → w'.Compiled ∧ w'.repcount = w.repcount

instance : Lasting.Scoped World.Steady where
  quiet h hw := ⟨h.compiled hw, h.repcount⟩
  trans h h' hw :=
    have hw₁ := h hw
    have hw' := h' hw₁.1
    ⟨hw'.1, hw'.2.trans hw₁.2⟩
  set _ _ _ hw := ⟨hw, rfl⟩
  bind _ _ _ hw := ⟨hw, rfl⟩
  test _ _ hw := ⟨hw, rfl⟩

namespace Watch

/-- A watch over the number of repetitions, which is `count` at the start of the code. -/
class Counting (k : Watch) (count : outParam Float) : Prop where
  keeps : Reenter.Keeps World.Steady k.re
  follows : k.follows = World.Steady
  ready : ∀ helper args w, k.ready helper args w
  divides : ∀ v, k.divides v
  counts : ∀ v, k.counts v
  equates : ∀ ann label a b, k.equates ann label a b
  ends : ∀ before args, k.ends before args
  returns : ∀ {w}, k.returns w ↔ w.Compiled ∧ w.repcount = count

attribute [instance] Counting.keeps

/-- Helpers that do not set the number of repetitions. -/
@[reducible]
def uncounted : Helper → Bool
  | .setRepcount => false
  | _ => true

variable {k : Watch} {count : Float} [hk : k.Counting count]

instance (helper : Helper) [hh : IsTrue (uncounted helper)] : k.Calm helper where
  ends _ := hk.ends
  ready := hk.ready helper
  follows {pins args _ _ _} h := by
    have hne : helper ≠ .setRepcount := by
      rintro rfl
      exact Bool.noConfusion hh.out
    rw [hk.follows]
    exact (Permissive.Scoped.callHelper k.re pins hne args).keeps h

instance : k.Ordinary where
  calm {helper} h := by
    have : IsTrue (uncounted helper) := ⟨by cases helper <;> first | rfl | cases h⟩
    infer_instance

instance : k.Lax :=
  ⟨hk.divides, hk.counts, hk.equates, fun _ => inferInstance, inferInstance, inferInstance⟩

instance : k.Running :=
  ⟨inferInstance, inferInstance, inferInstance, inferInstance, inferInstance, fun _ => inferInstance⟩

/-! ### Loops -/

/-- Within a loop a register holds the number of repetitions from before it, and what held then
would hold if that number were put back. -/
def Held (count : Float) (saved : Reg) (P : Assertion) : Assertion :=
  fun w regs => readReg regs saved = .real count ∧ P { w with repcount := count } regs

section

open Emit

variable {P : Assertion} {n : Nat} {saved value : Reg} {known : Annotation → Prop} {d : Draft}

theorem kept_held (hP : k.Stable n P) (hn : n ≤ saved.index) :
    k.Kept (saved.index + 1) (Held count saved P) := by
  refine ⟨fun {w w' regs regs'} hw hfollows hregs => ⟨?_, hP.follows hw.2 ?_ fun r hr => ?_⟩⟩
  · rw [hregs saved (Nat.lt_succ_self _), hw.1]
  · rw [hk.follows] at hfollows ⊢
    exact fun hcompiled => ⟨(hfollows hcompiled).1, rfl⟩
  · exact hregs r (by omega)

/-- A loop starts with the number of repetitions in a register. -/
theorem emits_repcount {α : Type} {f : Reg → Emit α} [GrowsAll f] {R : α → Draft → Assertion}
    (hP : k.Stable n P) (hnext : ∀ saved : Reg, n ≤ saved.index →
      k.EmitsAbove (saved.index + 1) known (f saved) (call .repcount [] d).2 (Held count saved P) R) :
    k.EmitsAbove n known (call .repcount [] >>= f) d P R := by
  intro hn
  have hcall : (call .repcount [] d).2.types = d.types.push .real := rfl
  have hsaved : k.Emits known (call .repcount []) d P fun _ _ => Held count ⟨d.types.size⟩ P := by
    refine .newReg (fun _ _ _ => trivial) fun w regs hsize hw =>
      ⟨hk.ready _ _ w, fun w' regs' hrun => ?_⟩
    cases hrun
    have hcount : { w with repcount := count } = w := by rw [← (hk.returns.mp (hP.returns hw)).2]
    refine ⟨?_, ?_⟩
    · rw [readReg_writeReg_self (r := ⟨d.types.size⟩) hsize, ← (hk.returns.mp (hP.returns hw)).2]
    · rw [hcount]
      exact hP.follows hw (k.refl w) fun r hr => readReg_writeReg_of_ne (by simp; omega)
  exact .bind hsaved (hnext ⟨d.types.size⟩ hn (by simp [hcall]))

/-- A pass sets the number. -/
theorem emits_setRepcount {counter : Reg} :
    k.EmitsAbove n known (perform .setRepcount [counter]) d (Held count saved P)
      fun _ _ => Held count saved P := by
  refine fun _ => .instr (fun _ _ _ => trivial) fun w regs _ hw =>
    ⟨hk.ready _ _ w, fun w' regs' hrun => ?_⟩
  cases hrun
  exact hw

/-- A way out puts the number back. -/
theorem emits_putBack :
    k.EmitsAbove n known (perform .setRepcount [saved]) d (Held count saved P) fun _ _ => P := by
  refine fun _ => .instr (fun _ _ _ => trivial) fun w regs _ hw =>
    ⟨hk.ready _ _ w, fun w' regs' hrun => ?_⟩
  cases hrun
  have hsaved : realArg [readReg regs saved] 0 = count := by rw [hw.1]; rfl
  show P { w with repcount := realArg [readReg regs saved] 0 } regs
  rw [hsaved]
  exact hw.2

/-- A token leaves the routine with the number put back. -/
theorem emits_leaveLoop (hP : k.Stable n P) (hn : n ≤ saved.index) :
    k.EmitsAbove (saved.index + 1) known (leaveLoop value saved) d (Held count saved P)
      fun _ _ => Held count saved P :=
  .whenKind (kept_held hP hn) fun _ _ =>
    .bind emits_putBack (.ret (fun _ _ => hP.returns) fun _ hann => hann.2)

/-- Data that nobody asked for leaves the routine with the number put back. -/
theorem emits_refuseData {next : Label} {Q : Assertion} (hP : k.Stable n P)
    (hnext : ∀ ann, known ann → ann next = Q) :
    k.EmitsAbove n known (refuseData value saved next) d (Held count saved P) fun _ _ => Q :=
  .bind emits_putBack (.bind (.fresh hP.toKept) (.ret (fun _ _ => hP.returns) hnext))

/-- Data of the last pass goes to the end of the loop. -/
theorem emits_keepLast {dontSay : Label} {last : Option (Reg × Reg × Label)} (hP : k.Stable n P)
    (hn : n ≤ saved.index) (hsay : ∀ ann, known ann → ann dontSay = Held count saved P)
    (hlast : ∀ p ∈ last, saved.index < p.2.1.index ∧
      ∀ ann, known ann → ann p.2.2 = Held count saved P) :
    k.EmitsAbove (saved.index + 1) known (keepLast value dontSay last) d (Held count saved P)
      fun _ _ => Held count saved P := by
  rcases last with _ | ⟨isLast, result, exit⟩
  · exact .jump fun ann hann => ⟨hsay ann hann, hsay ann hann⟩
  · obtain ⟨hresult, hexit⟩ := hlast _ rfl
    refine .freshLabel (Held count saved P) (.bind (.branch fun ann hann =>
      ⟨hann.2, hsay ann hann.1, hann.2⟩) ?_)
    exact .deliver (kept_held hP hn) hresult fun ann hann => ⟨hexit ann hann.1, hsay ann hann.1⟩

/-- After a pass the loop goes on, ends, or leaves the routine with the number put back. -/
theorem emits_passOutcome {last : Option (Reg × Reg × Label)} (hP : k.Stable n P)
    (hn : n ≤ saved.index) (hlast : ∀ p ∈ last, saved.index < p.2.1.index ∧
      ∀ ann, known ann → ann p.2.2 = Held count saved P) :
    k.EmitsAbove (saved.index + 1) known (passOutcome value saved last) d (Held count saved P)
      fun _ _ => Held count saved P := by
  -- every label in the loop has the same assertion; only where the routine is left the number is
  -- put back
  unfold passOutcome
  refine .bind (emits_leaveLoop hP hn) (.whenKind (kept_held hP hn) fun no _ => ?_)
  refine .freshLabel (Held count saved P) (.bind (emits_keepLast hP hn (fun _ hann => hann.2) ?_) ?_)
  · exact fun p hp => ⟨(hlast p hp).1, fun ann hann => (hlast p hp).2 ann hann.1.1⟩
  · exact emits_refuseData (hP.mono (hn.trans (Nat.le_succ _))) fun _ hann => hann.1.2

variable {given : Assertion} [hgiven : k.Allows given] {regs : List Reg} {labels : List Label}

/-- `REPEAT` keeps what held before it. -/
instance (who node : Ref) (times list : Reg) :
    k.Spares given n regs labels (repetition who node times list) where
  emits {d P} hn _ hP hstrong := by
    have hP : k.Stable n P := ⟨hP, fun hw => hgiven.returns (hstrong _ _ hw)⟩
    revert hn
    unfold repetition
    refine EmitsAbove.bind (.of_stable hP) (.bind (.of_stable hP) ?_)
    refine emits_repcount hP fun saved hn => ?_
    have hheld := kept_held hP hn
    refine .ownResult hheld fun result _ hresult => .freshReg fun hcounter => ?_
    refine .bind (.fresh hheld) (.bind (.move hheld hcounter) ?_)
    refine .freshLabel (Held count saved P) (.freshLabel (Held count saved P)
      (.freshLabel (Held count saved P) ?_))
    refine .bind (.jump fun ann hann => ⟨hann.1.1.2, hann.1.1.2⟩) (.bind (.fresh hheld) ?_)
    refine .bind (.branch fun ann hann => ⟨hann.1.2, hann.2, hann.1.2⟩) (.bind emits_setRepcount ?_)
    refine .bind (.fresh hheld) (.bind (.fresh hheld) (.bind (emits_passOutcome hP hn ?_) ?_))
    · rintro _ ⟨⟩
      exact ⟨hresult, fun ann hann => hann.2⟩
    · refine .bind (.countPass hheld hcounter) ?_
      exact .bind (.jump fun ann hann => ⟨hann.1.1.2, hann.2⟩) (.bind emits_putBack .pure)

/-- `FOREVER` keeps what held before it. -/
instance (who node : Ref) (list : Reg) :
    k.Spares given n regs labels (forever who node list) where
  emits {d P} hn _ hP hstrong := by
    have hP : k.Stable n P := ⟨hP, fun hw => hgiven.returns (hstrong _ _ hw)⟩
    revert hn
    unfold forever
    refine EmitsAbove.bind (.of_stable hP) (emits_repcount hP fun saved hn => ?_)
    have hheld := kept_held hP hn
    refine .freshReg fun hcounter => .bind (.fresh hheld) (.bind (.move hheld hcounter) ?_)
    refine .freshLabel (Held count saved P) (.bind (.jump fun ann hann => ⟨hann.2, hann.2⟩) ?_)
    refine .bind emits_setRepcount (.bind (.fresh hheld) ?_)
    refine .bind (emits_passOutcome hP hn (by simp)) (.bind (.countPass hheld hcounter) ?_)
    refine .freshLabel P (.bind (.jump fun ann hann => ⟨hann.1.2, hann.2⟩) (.of_stable ?_))
    exact hP.mono (hn.trans (Nat.le_succ _))

end

/-! ### Whole routines -/

include hk in
theorem gives_emitNode {pre : Draft → Assertion} (h : Heap) (head : NodeHead) (rs : List Reg) :
    k.Gives pre (emitNode h head rs) fun _ _ _ _ => True := by
  fun_cases emitNode h head rs <;> first | exact Spares.gives fun _ => inferInstance | exact .throw

end Watch

/-- **Lowered code puts the number of repetitions back**, wherever its loops are left, if the lists
and procedures it runs do. -/
theorem Linked.Lowered.steady_of_returns {re : Reenter} [Reenter.Keeps World.Steady re] {pins : Pins}
    {code : Linked} {block : Int} {w w' : World} {r : Ref} (hcode : code.Lowered)
    (hreturns : Machine.Returns re pins code block (Machine.start code w) r w') : w.Steady w' := by
  intro hw
  obtain ⟨h, parse, hrenders⟩ := hcode
  let k : Watch :=
    { re, pins, code, block
      follows := World.Steady
      ready := fun _ _ _ => True
      returns := fun w₁ => w₁.Compiled ∧ w₁.repcount = w.repcount
      refl := fun w₁ => Lasting.quiet (.refl w₁)
      trans := fun h h' => Lasting.trans h h' }
  have hcounting : k.Counting w.repcount := 
    ⟨‹_›, rfl, fun _ _ _ => trivial, fun _ => trivial, fun _ => trivial, fun _ _ _ _ => trivial, fun _ _ => trivial,
      .rfl⟩
  have hstable : k.Stable 0 fun w₁ _ => w₁.Compiled ∧ w₁.repcount = w.repcount :=
    ⟨⟨fun hw₁ hfollows _ => ⟨(hfollows hw₁.1).1, (hfollows hw₁.1).2.trans hw₁.2⟩⟩, id⟩
  exact ((Watch.Outline.plain k h fun _ => Watch.gives_emitNode h).sound hstable
    (fun _ _ node _ => Node.each_of_forall (fun _ _ => trivial) node) hrenders (fun _ => trivial)
    ⟨hw, rfl⟩).2 r w' hreturns

end LogoEngine
