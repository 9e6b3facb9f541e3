import LogoEngine.Proofs.Eval.TailCalls
import LogoEngine.Proofs.Lower.Loops
import LogoEngine.Proofs.Session.Freshness

/-!
# The number of repetitions is put back

`REPCOUNT` reads one number of the evaluator, which every pass of a loop sets. Whatever runs to an
end leaves that number as it found it, however many loops were entered and however they were left:
lowered code puts it back (`Linked.Lowered.steady_of_returns`), the cache holds lowered code only,
and nothing else sets it.

Main statements: `repcount_restored`, and `Session.Reachable.compiled` for its hypothesis.
-/

namespace LogoEngine

instance (f : Frames → Frames) : Run.Keeps World.Steady (Run.modifyFrames f) :=
  ⟨fun h hw => by cases h; exact ⟨hw, rfl⟩⟩

/-- Compiling something and running what comes of it. -/
theorem Run.Keeps.compiled {α : Type} {m : Compile Entry} {f : Except CompileError Entry → Run α}
    (hm : ∀ {w w' result}, m.run w = .ok (result, w') → w.Quiet w' ∧
      (w.Compiled → ∀ entry, result = .ok entry → entry.code.Lowered))
    (herror : ∀ failure, Run.Keeps World.Steady (f (.error failure)))
    (hok : ∀ entry, entry.code.Lowered → Run.Keeps World.Steady (f (.ok entry))) :
    Run.Keeps World.Steady (m.run >>= f) := by
  refine ⟨fun {w a w'} h hw => ?_⟩
  obtain ⟨result, w₁, hcompile, hrest⟩ := Run.bind_eq_ok h
  obtain ⟨hquiet, hlowered⟩ := hm hcompile
  have hsteady : w.Steady w₁ := Lasting.quiet hquiet
  cases result with
  | error failure => exact Lasting.trans hsteady ((herror failure).keeps hrest) hw
  | ok entry => exact Lasting.trans hsteady ((hok entry (hlowered hw entry rfl)).keeps hrest) hw

section

variable {re : Reenter} [hre : Reenter.Keeps World.Steady re]

theorem Linked.Lowered.runCode {code : Linked} (hcode : code.Lowered) (fuel : Nat) (pins : Pins)
    (block : Int) : Run.Keeps World.Steady (runCode re fuel pins code block) :=
  ⟨fun h => hcode.steady_of_returns (Machine.exists_runCode_iff.mp ⟨fuel, h⟩)⟩

/-! ### Lists -/

instance (fuel : Nat) (pins : Pins) (list : Ref) :
    Run.Keeps World.Steady (runListWith re fuel pins list) := by
  refine .compiled (fun h => ?_) (fun failure => ?_) fun entry hentry => ?_
  · exact quiet_compileSource h
  · exact inferInstanceAs (Run.Keeps _ (raiseCompileFailure list failure))
  · exact .bind inferInstance fun w => .bind inferInstance fun _ =>
      .bind (hentry.runCode _ _ _) fun _ => inferInstance

/-! ### Calls -/

instance (fuel : Nat) (pins : Pins) (procedure call : Ref) (p : Procedure) (args : List Ref) :
    Run.Keeps World.Steady (runBody re fuel pins procedure call p args) := by
  unfold runBody
  refine .bind inferInstance fun args => .bind inferInstance fun bound => ?_
  split
  · infer_instance
  · refine .bind inferInstance fun _ => .compiled quiet_compileSource (fun failure => ?_)
      fun entry hentry => ?_
    · exact inferInstanceAs (Run.Keeps _ (raiseCompileFailure p.body failure))
    · exact .bind inferInstance fun _ => .runJumps (hentry.runCode _ _) procedure fuel 0

end

/-- The engine puts the number of repetitions back, at any depth. -/
instance steady_engine (fuel : Nat) : Reenter.Keeps World.Steady (engine fuel) := by
  induction fuel with
  | zero =>
    exact ⟨fun _ _ => inferInstanceAs (Run.Keeps _ (throw _)),
      fun _ _ _ => inferInstanceAs (Run.Keeps _ (throw _))⟩
  | succ fuel ih =>
    exact ⟨fun pins list =>
        inferInstanceAs (Run.Keeps _ (runListWith (engine fuel) fuel pins list)),
      fun pins node args =>
        inferInstanceAs (Run.Keeps _ (runCalls (engine fuel) fuel pins fuel _))⟩

/-! ### The top level -/

instance (fuel : Nat) (pins : Pins) (node : Ref) :
    Run.Keeps World.Steady (runNode fuel pins node) := by
  unfold runNode
  refine .compiled quiet_compileNode (fun failure => ?_) fun entry hentry => ?_
  · exact inferInstanceAs (Run.Keeps _ (raiseCompileFailure node failure))
  · exact hentry.runCode _ _ _

/-- **The number of repetitions is put back.** Whatever runs to an end, as a list, a node, a call or
at the top level, leaves the number of repetitions as it was, with any result. -/
theorem repcount_restored (fuel : Nat) (pins : Pins) {w w' : World} (hw : w.Compiled) :
    (∀ list r, (engine fuel).list pins list w = .ok (r, w') → w'.repcount = w.repcount) ∧
    (∀ node r, runNode fuel pins node w = .ok (r, w') → w'.repcount = w.repcount) ∧
    (∀ node args r, (engine fuel).procedure pins node args w = .ok (r, w') →
      w'.repcount = w.repcount) ∧
    ∀ list result, execute fuel pins list w = .ok (result, w') → w'.repcount = w.repcount := by
  have hsteady {α : Type} {m : Run α} [hm : Run.Keeps World.Steady m] {a : α}
      (h : m w = .ok (a, w')) : w'.repcount = w.repcount := (hm.keeps h hw).2
  exact ⟨fun _ _ h => hsteady h, fun _ _ h => hsteady h, fun _ _ _ h => hsteady h,
    fun _ _ h => hsteady h⟩

namespace Abandoned

/-- A procedure that loops within a loop, and leaves both at once. -/
def looping : Sketch :=
  .procedure "looping" [] [] none none
    (.code [[.call "forever" [.literal (.code [[.call "forever"
      [.literal (.code [[.call "stop" []]])]]])]]]) []

/-- The procedure, a call of it, and a list that loops forever on an unknown procedure. -/
def made : (Ref × Ref × Ref) × Heap :=
  (do
    let procedure ← looping.build []
    let call ← Sketch.build [] (.procedureCall "looping" [])
    let list ← Sketch.build []
      (.code [[.procedureCall "looping" []],
        [.call "forever" [.literal (.code [[.procedureCall "missing" []]])]]])
    return (procedure, call, list) : Making (Ref × Ref × Ref)) {}

/-- The procedure is defined, and the third repetition of something is running. -/
def world : World where
  heap := made.2
  procedures := [("LOOPING", made.1.1)]
  repcount := 3

theorem exists_eq_ok {α : Type} {x : Except Halt (α × World)} (h : x.isOk = true) :
    ∃ a w', x = .ok (a, w') := by
  cases x with
  | error halt => cases h
  | ok out => exact ⟨out.1, out.2, rfl⟩

/-- Loops that are left by `STOP` and by an error. -/
theorem repcount_abandoned :
    world.Compiled ∧
    (∃ r w', (engine 12).list [] made.1.2.2 world = .ok (r, w') ∧ w'.repcount = world.repcount) ∧
    (∃ r w', runNode 12 [] made.1.2.1 world = .ok (r, w') ∧ w'.repcount = world.repcount) ∧
    (∃ r w', (engine 12).procedure [] made.1.2.1 [] world = .ok (r, w') ∧
      w'.repcount = world.repcount) ∧
    ∃ result w', execute 12 [] made.1.2.2 world = .ok (result, w') ∧
      w'.repcount = world.repcount := by
  have hw : world.Compiled := fun _ he => absurd he List.not_mem_nil
  refine ⟨hw, ?_, ?_, ?_, ?_⟩
  · obtain ⟨r, w', h⟩ :=
      exists_eq_ok (x := (engine 12).list [] made.1.2.2 world) (by decide +kernel)
    exact ⟨r, w', h, (repcount_restored 12 [] hw).1 _ _ h⟩
  · obtain ⟨r, w', h⟩ := exists_eq_ok (x := runNode 12 [] made.1.2.1 world) (by decide +kernel)
    exact ⟨r, w', h, (repcount_restored 12 [] hw).2.1 _ _ h⟩
  · obtain ⟨r, w', h⟩ :=
      exists_eq_ok (x := (engine 12).procedure [] made.1.2.1 [] world) (by decide +kernel)
    exact ⟨r, w', h, (repcount_restored 12 [] hw).2.2.1 _ _ _ h⟩
  · obtain ⟨result, w', h⟩ :=
      exists_eq_ok (x := execute 12 [] made.1.2.2 world) (by decide +kernel)
    exact ⟨result, w', h, (repcount_restored 12 [] hw).2.2.2 _ _ h⟩

end Abandoned

/-! ### Sessions -/

instance (source : Ref) : Run.Keeps World.Steady (invalidate source) := by
  refine ⟨fun {w _ _} h hw => ?_⟩
  cases (invalidate_apply w source).symm.trans h
  unfold World.dropCode
  split
  · exact ⟨fun e he => hw e (List.mem_of_mem_filter he), rfl⟩
  · exact ⟨hw, rfl⟩

instance (procedure : Ref) : Run.Keeps World.Steady (defineProcedure procedure) := by
  have hprocedures (f : World → Table Ref) :
      Run.Keeps World.Steady (modify fun w => { w with procedures := f w }) :=
    ⟨fun h hw => by cases h; exact ⟨hw, rfl⟩⟩
  have htime (now : Nat) :
      Run.Keeps World.Steady (modify fun w => { w with lastDefinition := now }) :=
    ⟨fun h hw => by cases h; exact ⟨hw, rfl⟩⟩
  unfold defineProcedure
  refine .bind inferInstance fun h => ?_
  split
  · infer_instance
  · next p _ =>
    refine .bind inferInstance fun w => .bind (hprocedures _) fun _ => ?_
    split <;> infer_instance

namespace Session

variable {s s' : Session}

instance (f : Host → Host) : Run.Keeps World.Steady (modifyHost f) := by
  unfold modifyHost; infer_instance

instance (r : Ref) (block : Int) : Run.Keeps World.Steady (enterBlock r block) := by
  unfold enterBlock
  refine .compiled (fun h => quiet_compileSource h) (fun failure => ?_) fun entry hentry => ?_
  · exact inferInstanceAs (Run.Keeps _ (pure _))
  · exact .bind (hentry.runCode _ _ _) fun _ => inferInstance

theorem steady_run {α : Type} {m : Run α} [hm : Run.Keeps World.Steady m] {a : α}
    (h : Session.run m s = .ok (a, s')) : s.world.Steady s'.world :=
  hm.keeps (run_eq_ok h)

theorem steady_compile {m : Run (Except CompileError Entry)} [Run.Keeps World.Steady m]
    {name : Option String} {a : Answer}
    (h : (Session.run m >>= answerEntry name) s = .ok (a, s')) : s.world.Steady s'.world := by
  obtain ⟨⟨result, s₁⟩, hrun, hrest⟩ := bind_eq_ok_iff.mp h
  rw [answerEntry_world hrest]
  exact steady_run hrun

/-- A step that calls a helper may set the number of repetitions. -/
theorem compiled_callHelper {helper : Helper} {args : List Argument} {a : Answer}
    (h : takeStep (.callHelper helper args) s = .ok (a, s')) (hs : s.world.Compiled) :
    s'.world.Compiled := by
  obtain ⟨values, w, hargs, hrest⟩ := Run.bind_eq_ok (run_eq_ok h)
  have hmade : Run.Keeps World.Steady (args.mapM buildArgument) := inferInstance
  have hw := (hmade.keeps hargs hs).1
  by_cases hhelper : helper = .setRepcount
  · subst hhelper
    generalize s'.world = w' at hrest
    cases hrest
    exact hw
  · have hkeeps := Permissive.Scoped.callHelper (R := World.Steady) (engine fuel)
      [.registers values.toArray] hhelper values
    obtain ⟨_, _, hcall, hdone⟩ := Run.bind_eq_ok hrest
    generalize s'.world = w' at hdone
    cases hdone
    exact (hkeeps.keeps hcall hw).1

/-- A step of a session keeps lowered code in the cache. -/
theorem compiled_takeStep {step : Step} {a : Answer} (h : takeStep step s = .ok (a, s'))
    (hs : s.world.Compiled) : s'.world.Compiled := by
  cases step with
  | callHelper => exact compiled_callHelper h hs
  | compile | compileNode => exact (steady_compile h hs).1
  | isCached =>
    cases h
    exact hs
  | learn source parse => cases parse <;> exact (steady_run h hs).1
  | attach target parse =>
    cases h
    exact hs
  | invalidateProcedure name =>
    refine ((Run.Keeps.bind (R := World.Steady) inferInstance fun w => ?_).keeps
      (run_eq_ok h) hs).1
    dsimp only
    split <;> infer_instance
  | _ => exact (steady_run h hs).1

/-- In every state of a session the cache holds lowered code only. -/
theorem Reachable.compiled (hs : s.Reachable) : s.world.Compiled := by
  obtain ⟨host, settings, random, hreaches⟩ := hs
  induction hreaches with
  | refl => exact fun _ he => absurd he List.not_mem_nil
  | tail _ hnext ih =>
    obtain ⟨step, answer, htake⟩ := hnext
    exact compiled_takeStep htake ih

end Session

end LogoEngine
