import LogoEngine.Eval.Engine
import LogoEngine.Proofs.Heap.Liveness

/-!
# What suspended computations hold on to

Pins only matter to a sweep of the code cache, which asks what is alive, and that depends on the
set of objects with a handle. So pins that hold the same objects are **alike**: everything the
engine does under them is the same.

Main statement: `engine_steady`.
-/

namespace LogoEngine

/-- Every object that pins hold on to; "no value" is always held. -/
def Pins.held (pins : Pins) : List Ref :=
  Ref.nothing :: pins.flatMap Pin.references

/-- Pins that hold on to the same objects. -/
def Pins.Alike (pins pins' : Pins) : Prop :=
  ∀ r, r ∈ Pins.held pins ↔ r ∈ Pins.held pins'

namespace Pins.Alike

variable {pins pins' pins'' : Pins}

theorem refl : Pins.Alike pins pins := fun _ => Iff.rfl

theorem symm (h : Pins.Alike pins pins') : Pins.Alike pins' pins := fun r => (h r).symm

theorem trans (h : Pins.Alike pins pins') (h' : Pins.Alike pins' pins'') :
    Pins.Alike pins pins'' :=
  fun r => (h r).trans (h' r)

theorem cons (pin : Pin) (h : Pins.Alike pins pins') :
    Pins.Alike (pin :: pins) (pin :: pins') := by
  intro r
  have hr := h r
  simp only [held, List.mem_cons, List.flatMap_cons, List.mem_append] at hr ⊢
  grind

end Pins.Alike

theorem Pins.mem_held_cons {pin : Pin} {pins : Pins} {r : Ref} :
    r ∈ Pins.held (pin :: pins) ↔ r ∈ pin.references ∨ r ∈ Pins.held pins := by
  simp only [held, List.mem_cons, List.flatMap_cons, List.mem_append]
  grind

/-- Liveness is the same under pins that are alike. -/
theorem World.liveness_congr {pins pins' : Pins} (h : Pins.Alike pins pins') (w : World) :
    w.liveness pins = w.liveness pins' := by
  refine Census.isAlive_congr fun r => ?_
  have hr := h r
  simp only [Pins.held, World.roots, List.mem_cons, List.mem_append] at hr ⊢
  grind

/-- Code that runs the same under pins that are alike. -/
structure Reenter.Steady (re : Reenter) : Prop where
  list : ∀ {pins pins' : Pins}, Pins.Alike pins pins' → re.list pins = re.list pins'
  procedure : ∀ {pins pins' : Pins}, Pins.Alike pins pins' → re.procedure pins = re.procedure pins'

section

variable {re : Reenter} {pins pins' : Pins}

/-! ### Compiling -/

theorem enterCode_congr (h : Pins.Alike pins pins') : enterCode pins = enterCode pins' := by
  funext id source stamp entry
  have hlive (w : World) :=
    w.liveness_congr ((h.cons (.constants entry.code.constants)).cons (.refs [source]))
  simp only [enterCode, hlive]

theorem compileSource_congr (h : Pins.Alike pins pins') :
    compileSource pins = compileSource pins' := by
  funext source procedure
  rw [compileSource, compileSource, enterCode_congr h]

/-! ### The machine -/

theorem callHelper_congr (hre : re.Steady) (h : Pins.Alike pins pins') :
    callHelper re pins = callHelper re pins' := by
  funext helper args
  cases helper <;> simp only [callHelper, hre.list h, hre.procedure h]

theorem runInstr_congr (hre : re.Steady) (h : Pins.Alike pins pins') :
    runInstr re pins = runInstr re pins' := by
  funext code block regs i
  cases i <;> simp only [runInstr, callHelper_congr hre (h.cons (.registers regs))]

theorem runInstrs_congr (hre : re.Steady) (h : Pins.Alike pins pins') :
    runInstrs re pins = runInstrs re pins' := by
  funext code block regs is
  induction is generalizing regs with
  | nil => rfl
  | cons i is ih => simp only [runInstrs, runInstr_congr hre h, ih]

theorem runBlocks_congr (hre : re.Steady) (h : Pins.Alike pins pins') :
    runBlocks re pins = runBlocks re pins' := by
  funext code block fuel regs position
  induction fuel generalizing regs position with
  | zero => rfl
  | succ fuel ih => simp only [runBlocks, runInstrs_congr hre h, ih]

theorem runCode_congr (hre : re.Steady) (h : Pins.Alike pins pins') (fuel : Nat) :
    runCode re fuel pins = runCode re fuel pins' := by
  funext code block
  rw [runCode, runCode, runBlocks_congr hre (h.cons _)]

/-! ### Lists and procedures -/

theorem runListWith_congr (hre : re.Steady) (h : Pins.Alike pins pins') (fuel : Nat) :
    runListWith re fuel pins = runListWith re fuel pins' := by
  funext list
  have hrun (held : List Ref) := runCode_congr hre (h.cons (.refs held)) fuel
  simp only [runListWith, compileList, compileSource_congr (h.cons (.refs [list])), hrun]

theorem bindOptional_congr (hre : re.Steady) (h : Pins.Alike pins pins') :
    bindOptional re pins = bindOptional re pins' := by
  funext call params args
  induction params generalizing args with
  | nil => rfl
  | cons param params ih =>
    obtain ⟨name, default⟩ := param
    cases args <;> simp only [bindOptional, hre.list h, ih]

theorem runJumps_congr (hre : re.Steady) (h : Pins.Alike pins pins') (loop : Nat) :
    runJumps re loop pins = runJumps re loop pins' := by
  funext procedure code fuel block
  induction fuel generalizing block with
  | zero => rfl
  | succ fuel ih => simp only [runJumps, runCode_congr hre h, ih]

theorem runBody_congr (hre : re.Steady) (h : Pins.Alike pins pins') (fuel : Nat) :
    runBody re fuel pins = runBody re fuel pins' := by
  funext procedure call p args
  have hbind (held : List Ref) := bindOptional_congr hre (h.cons (.refs held))
  simp only [runBody, hbind, compileSource_congr h, runJumps_congr hre h]

theorem invoke_congr (hre : re.Steady) (h : Pins.Alike pins pins') (fuel : Nat) :
    invoke re fuel pins = invoke re fuel pins' := by
  funext procedure call args
  simp only [invoke, runBody_congr hre h]

theorem runCalls_congr (hre : re.Steady) (h : Pins.Alike pins pins') (loop : Nat) :
    runCalls re loop pins = runCalls re loop pins' := by
  funext fuel a
  have hinvoke (held : List Ref) := invoke_congr hre (h.cons (.refs held)) loop
  induction fuel generalizing a with
  | zero => rfl
  | succ fuel ih => simp only [runCalls, hinvoke, ih]

end

/-- **The engine runs the same under pins that are alike.** -/
theorem engine_steady (n : Nat) : (engine n).Steady := by
  induction n with
  | zero => exact ⟨fun _ => rfl, fun _ => rfl⟩
  | succ n ih =>
    refine ⟨fun h => ?_, fun h => ?_⟩
    · exact runListWith_congr ih h n
    · funext node args
      simp only [engine, runProcedureWith, runCalls_congr ih h]

end LogoEngine
