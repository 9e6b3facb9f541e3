import LogoEngine.Proofs.Eval.Changes

/-!
# Running code does nothing but changes

What the helpers and the machine do to the evaluator is a sequence of changes, which may concern
frames and the number of repetitions. Helpers that run more code do so through `Reenter`, and the
engine is taken by induction on its depth.

Main statement: `changes_engine`.
-/

namespace LogoEngine

/-- Running lists and procedures does nothing but changes. -/
class Reenter.Changes (re : Reenter) : Prop where
  list : ∀ pins r, Run.Changes (re.list pins r)
  procedure : ∀ pins node args, Run.Changes (re.procedure pins node args)

attribute [instance] Reenter.Changes.list Reenter.Changes.procedure

instance (f : Frames → Frames) : Run.Keeps World.Changes (Run.modifyFrames f) :=
  ⟨fun {w _ _} h => by cases h; exact .single (.aside (f w.frames) _ _ _ _ rfl)⟩

instance (x : Float) : Run.Keeps World.Changes (modify fun w => { w with repcount := x }) :=
  ⟨fun {w _ _} h => by cases h; exact .single (.aside w.frames x _ _ _ rfl)⟩

instance : Permissive.Scoped World.Changes where
  set w key value := .single (.aside (w.frames.set key value) _ _ _ _ rfl)
  bind w key value := .single (.aside (w.frames.bind key value) _ _ _ _ rfl)
  test w _ := .single (.aside (w.frames.modifyTop _) _ _ _ _ rfl)

section

variable {re : Reenter} [hre : Reenter.Changes re]

instance : Reenter.Keeps World.Changes re where
  list pins r := ⟨(hre.list pins r).changes⟩
  procedure pins node args := ⟨(hre.procedure pins node args).changes⟩

instance (pins : Pins) (helper : Helper) (args : List Value) :
    Run.Keeps World.Changes (callHelper re pins helper args) := by
  by_cases hhelper : helper = .setRepcount
  · subst hhelper
    unfold callHelper
    infer_instance
  · exact Permissive.Scoped.callHelper re pins hhelper args

instance (fuel : Nat) (pins : Pins) (list : Ref) :
    Run.Keeps World.Changes (runListWith re fuel pins list) := by
  unfold runListWith
  refine .bind inferInstance fun compiled => ?_
  split <;> infer_instance

instance (fuel : Nat) (pins : Pins) (node : Ref) (args : List Ref) :
    Run.Keeps World.Changes (runProcedureWith re fuel pins node args) := by
  unfold runProcedureWith; infer_instance

end

/-- **All that the engine does are changes**, at any depth. -/
instance changes_engine (fuel : Nat) : Reenter.Changes (engine fuel) := by
  induction fuel with
  | zero =>
    exact ⟨fun _ _ => inferInstanceAs (Run.Changes (throw _)),
      fun _ _ _ => inferInstanceAs (Run.Changes (throw _))⟩
  | succ fuel ih =>
    exact ⟨fun pins list =>
        inferInstanceAs (Run.Changes (runListWith (engine fuel) fuel pins list)),
      fun pins node args =>
        inferInstanceAs (Run.Changes (runProcedureWith (engine fuel) fuel pins node args))⟩

instance (fuel : Nat) (pins : Pins) (node : Ref) :
    Run.Keeps World.Changes (runNode fuel pins node) := by
  unfold runNode
  refine .bind inferInstance fun compiled => ?_
  split <;> infer_instance

end LogoEngine
