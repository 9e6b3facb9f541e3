import LogoEngine.Eval.Compile
import LogoEngine.Proofs.Code.Linking
import LogoEngine.Proofs.Eval.Keeping
import LogoEngine.Proofs.Lower.Checked

/-!
# Compiling with and without the structural check

Without the check, a built parse always becomes linked code. With the check it becomes the same
code if the parse fits; if it does not fit, there is no code, although the code would have
returned an error of its own before it came to the register of the wrong type.

Main statement: `lowerAndLink_checking`.
-/

namespace LogoEngine

/-- The same state with the check switched on or off. -/
def World.checking (w : World) (on : Bool) : World :=
  { w with settings := { w.settings with verify := on } }

/-- The state after the labels of a parse were recorded in its procedure. -/
def World.labelled (w : World) (procedure : Option Ref)
    (labels : List (String × LabelTarget)) : World :=
  match procedure with
  | some p => { w with heap := w.heap.recordLabels p labels }
  | none => w

/-- The state after a routine was linked. -/
def World.countLinked (w : World) : World :=
  { w with linked := w.linked + 1 }

/-- Code that fails the check is reported under its name. -/
theorem Routine.exists_verify_eq_error {code : Routine} (h : code.verify ≠ .ok ()) :
    ∃ flaw, code.verify = .error (.invalidCode code.name flaw) := by
  unfold Routine.verify at h ⊢
  cases hcheck : code.check with
  | ok _ => simp [hcheck] at h
  | error flaw => exact ⟨flaw.message, rfl⟩

/-- A parse that can be lowered is linked after its labels are recorded. -/
theorem lowerAndLink_run {w : World} {name : String} {parse : Parse} {line : Option Ref}
    {code : Routine} (hcode : (lowerUnit w.heap name line parse).1 = .ok code)
    (procedure : Option Ref) :
    (lowerAndLink name parse procedure line).run w =
      (linkRoutine code).run (w.labelled procedure (lowerUnit w.heap name line parse).2) := by
  have hheap : (ExceptT.run (liftM Run.heap) : Run (Except CompileError Heap)) =
      (do return .ok (← get).heap) := rfl
  unfold lowerAndLink
  rw [ExceptT.run_bind, hheap, bind_assoc]
  simp only [pure_bind]
  rw [Run.get_bind, hcode]
  generalize (lowerUnit w.heap name line parse).2 = labels
  cases procedure <;> rfl

/-- The end of linking. -/
private def enterLinked (code : Routine) (backend : Backend) : Compile Entry := do
  let linked ← ExceptT.mk (pure (code.link backend))
  let number := (← get).linked
  modify World.countLinked
  return ⟨number, linked⟩

private theorem linkRoutine_run_off (w : World) (code : Routine) :
    (linkRoutine code).run (w.checking false) =
      (enterLinked code w.settings.backend).run (w.checking false) :=
  rfl

private theorem linkRoutine_run_on (w : World) (code : Routine) :
    (linkRoutine code).run (w.checking true) =
      (ExceptT.mk (pure code.verify) >>= fun _ => enterLinked code w.settings.backend).run
        (w.checking true) :=
  rfl

private theorem enterLinked_run {w : World} {code : Routine} {linked : Linked} {backend : Backend}
    (hlinked : code.link backend = .ok linked) :
    (enterLinked code backend).run w = .ok (.ok ⟨w.linked, linked⟩, w.countLinked) := by
  unfold enterLinked
  rw [hlinked]
  rfl

/-- **What the check changes about a compilation.** A built parse becomes linked code without the
check; with the check the same happens exactly if the parse fits, and otherwise the compilation
fails. -/
theorem lowerAndLink_checking {w : World} {parse : Parse} (hbuilt : parse.Built w.heap)
    (name : String) (procedure line : Option Ref) :
    ∃ entry, ∃ w' : World, (lowerAndLink name parse procedure line).run (w.checking false) =
        .ok (.ok entry, w'.checking false) ∧
      (parse.fits w.heap = true → (lowerAndLink name parse procedure line).run (w.checking true) =
        .ok (.ok entry, w'.checking true)) ∧
      (parse.fits w.heap = false → ∃ flaw w'',
        (lowerAndLink name parse procedure line).run (w.checking true) =
          .ok (.error (.invalidCode name flaw), w'')) := by
  obtain ⟨code, hcode, hname, hwell, hiff⟩ := exists_verify_lowerUnit_iff hbuilt name line
  obtain ⟨linked, hlinked, -⟩ := code.exists_link w.settings.backend hwell.entry hwell.targets
  -- the setting is read only where the code is linked: what is lowered and noted is the same
  have hlabelled : ∀ on labels, (w.checking on).labelled procedure labels =
      (w.labelled procedure labels).checking on := by
    intro on labels
    cases procedure <;> rfl
  have hbackend : ∀ labels, (w.labelled procedure labels).settings.backend =
      w.settings.backend := by
    intro labels
    cases procedure <;> rfl
  have hrun : ∀ on, (lowerAndLink name parse procedure line).run (w.checking on) =
      (linkRoutine code).run
        ((w.labelled procedure (lowerUnit w.heap name line parse).2).checking on) := by
    intro on
    rw [← hlabelled]
    exact lowerAndLink_run (w := w.checking on) hcode procedure
  generalize (lowerUnit w.heap name line parse).2 = labels at hrun
  refine ⟨⟨(w.labelled procedure labels).linked, linked⟩,
    (w.labelled procedure labels).countLinked, ?_, fun hfits => ?_, fun hfits => ?_⟩
  · rw [hrun, linkRoutine_run_off, hbackend, enterLinked_run hlinked]
    rfl
  · rw [hrun, linkRoutine_run_on, hbackend, hiff.mpr hfits]
    exact enterLinked_run hlinked
  · obtain ⟨flaw, hflaw⟩ : ∃ flaw, code.verify = .error (.invalidCode code.name flaw) := by
      refine Routine.exists_verify_eq_error fun hok => ?_
      rw [hiff.mp hok] at hfits
      cases hfits
    refine ⟨flaw, (w.labelled procedure labels).checking true, ?_⟩
    rw [hrun, linkRoutine_run_on, hflaw, hname]
    rfl

/-- `sum (print "hello) "hello` is compiled only without the check. -/
theorem lowerAndLink_sumOfPrint : sumOfPrint.Built wordsOfSum ∧
    ∃ entry, ∃ w' : World, (lowerAndLink "list#1" sumOfPrint none none).run
        ({ heap := wordsOfSum : World }.checking false) = .ok (.ok entry, w'.checking false) ∧
      ∃ flaw w'', (lowerAndLink "list#1" sumOfPrint none none).run
        ({ heap := wordsOfSum : World }.checking true) =
          .ok (.error (.invalidCode "list#1" flaw), w'') := by
  have hfits : sumOfPrint.fits wordsOfSum = false := by decide +kernel
  obtain ⟨entry, w', hoff, -, hon⟩ :=
    lowerAndLink_checking (w := { heap := wordsOfSum }) built_sumOfPrint "list#1" none none
  exact ⟨built_sumOfPrint, entry, w', hoff, hon hfits⟩

end LogoEngine
