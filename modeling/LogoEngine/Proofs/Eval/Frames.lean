import LogoEngine.Proofs.Eval.Quiet
import LogoEngine.Proofs.Eval.TailCalls

/-!
# Frames stay in place

A list runs in the frame that is innermost when it starts, and a call in a frame of its own. However
they end, the frames that were there before are there again, for the same calls and running the same
lines. Assignments change values in any frame, but names come and go only in the innermost frame and
among the globals, and a call leaves names and tests of its caller alone.

Main statement: `frames_inPlace`.
-/

namespace LogoEngine

/-! ### Single frames -/

/-- Two states of a frame that belong to the same call and run the same line. -/
structure Frame.SameCall (f f' : Frame) : Prop where
  procedure : f'.procedure = f.procedure
  node : f'.node = f.node
  line : f'.line = f.line

/-- Two states of a frame that differ in the values of variables only. -/
structure Frame.Same (f f' : Frame) : Prop extends Frame.SameCall f f' where
  test : f'.test = f.test
  names : ∀ key, f'.locals.has key = f.locals.has key

namespace Frame

theorem SameCall.refl (f : Frame) : f.SameCall f := ⟨rfl, rfl, rfl⟩

theorem SameCall.trans {f g h : Frame} (hfg : f.SameCall g) (hgh : g.SameCall h) :
    f.SameCall h :=
  ⟨hgh.procedure.trans hfg.procedure, hgh.node.trans hfg.node, hgh.line.trans hfg.line⟩

theorem Same.refl (f : Frame) : f.Same f := ⟨.refl f, rfl, fun _ => rfl⟩

theorem Same.trans {f g h : Frame} (hfg : f.Same g) (hgh : g.Same h) : f.Same h :=
  ⟨hfg.toSameCall.trans hgh.toSameCall, hgh.test.trans hfg.test,
    fun key => (hgh.names key).trans (hfg.names key)⟩

instance : IsPreorder Frame SameCall where
  refl := SameCall.refl
  trans _ _ _ := SameCall.trans

instance : IsPreorder Frame Same where
  refl := Same.refl
  trans _ _ _ := Same.trans

end Frame

theorem forall₂_trans {α : Type} {R : α → α → Prop} [IsTrans α R] {as bs cs : List α}
    (h : List.Forall₂ R as bs) (h' : List.Forall₂ R bs cs) : List.Forall₂ R as cs := by
  induction h generalizing cs with
  | nil => exact h'
  | cons hfirst _ ih =>
    cases h' with
    | cons hnext hrest => exact .cons (IsTrans.trans _ _ _ hfirst hnext) (ih hrest)

theorem forall₂_ne_nil {α : Type} {R : α → α → Prop} {as bs : List α} (h : List.Forall₂ R as bs)
    (has : as ≠ []) : bs ≠ [] := by
  rintro rfl
  cases h
  exact has rfl

/-! ### All frames -/

namespace Frames

/-- Frames before and after a list ran in the innermost one. -/
structure AfterList (fs fs' : Frames) : Prop where
  calls : List.Forall₂ Frame.SameCall fs.calls fs'.calls
  callers : List.Forall₂ Frame.Same fs.calls.tail fs'.calls.tail
  globals : fs.globals.SameCall fs'.globals
  test : fs.calls ≠ [] → fs'.globals.test = fs.globals.test

/-- Frames before and after a call. -/
structure AfterCall (fs fs' : Frames) : Prop where
  calls : List.Forall₂ Frame.Same fs.calls fs'.calls
  globals : fs.globals.SameCall fs'.globals
  test : fs'.globals.test = fs.globals.test

/-- Frames at two moments of one call: its own frame is there, and those of its callers are as after
a call. -/
def InCall (fs fs' : Frames) : Prop :=
  fs.calls ≠ [] → fs'.calls ≠ [] ∧ fs.pop.AfterCall fs'.pop

instance : IsPreorder Frames AfterList where
  refl _ := ⟨List.forall₂_refl _, List.forall₂_refl _, .refl _, fun _ => rfl⟩
  trans _ _ _ h h' :=
    { calls := forall₂_trans h.calls h'.calls
      callers := forall₂_trans h.callers h'.callers
      globals := h.globals.trans h'.globals
      test := fun hne => (h'.test (forall₂_ne_nil h.calls hne)).trans (h.test hne) }

instance : IsPreorder Frames AfterCall where
  refl _ := ⟨List.forall₂_refl _, .refl _, rfl⟩
  trans _ _ _ h h' :=
    ⟨forall₂_trans h.calls h'.calls, h.globals.trans h'.globals, h'.test.trans h.test⟩

instance : IsPreorder Frames InCall where
  refl _ hne := ⟨hne, Std.Refl.refl _⟩
  trans _ _ _ h h' hne :=
    ⟨(h' (h hne).1).1, IsTrans.trans _ _ _ (h hne).2 (h' (h hne).1).2⟩

theorem AfterCall.afterList {fs fs' : Frames} (h : fs.AfterCall fs') : fs.AfterList fs' where
  calls := h.calls.imp fun _ _ => Frame.Same.toSameCall
  callers := by
    obtain ⟨calls, _⟩ := fs
    obtain ⟨calls', _⟩ := fs'
    cases h.calls with
    | nil => exact .nil
    | cons _ hrest => exact hrest
  globals := h.globals
  test := fun _ => h.test

theorem AfterList.inCall {fs fs' : Frames} (h : fs.AfterList fs') : fs.InCall fs' :=
  fun hne => ⟨forall₂_ne_nil h.calls hne, h.callers, h.globals, h.test hne⟩

theorem AfterList.depth_eq {fs fs' : Frames} (h : fs.AfterList fs') : fs'.depth = fs.depth :=
  h.calls.length_eq.symm

theorem InCall.depth_eq {fs fs' : Frames} (h : fs.InCall fs') (hne : fs.calls ≠ []) :
    fs'.depth = fs.depth := by
  obtain ⟨hne', hcallers⟩ := h hne
  have htails : fs.calls.tail.length = fs'.calls.tail.length := hcallers.calls.length_eq
  obtain ⟨_, _, heq⟩ := List.exists_cons_of_ne_nil hne
  obtain ⟨_, _, heq'⟩ := List.exists_cons_of_ne_nil hne'
  rw [heq, heq'] at htails
  rw [depth, depth, heq, heq', List.length_cons, List.length_cons]
  exact congrArg Nat.succ htails.symm

/-! ### What changes frames -/

theorem same_insert {f : Frame} {key : String} (hkey : f.locals.has key = true) (value : Ref) :
    f.Same { f with locals := f.locals.insert key value } := by
  refine ⟨⟨rfl, rfl, rfl⟩, rfl, fun other => ?_⟩
  by_cases hother : other = key
  · rw [hother, hkey, Table.has, Table.get?_insert_self]
    rfl
  · rw [Table.has, Table.has, Table.get?_insert_of_ne _ _ hother]

theorem same_of_assign? {key : String} {value : Ref} {calls calls' : List Frame}
    (h : assign? key value calls = some calls') : List.Forall₂ Frame.Same calls calls' := by
  induction calls generalizing calls' with
  | nil => cases h
  | cons frame rest ih =>
    unfold assign? at h
    split at h
    · next hkey =>
      cases h
      exact .cons (same_insert hkey value) (List.forall₂_refl _)
    · obtain ⟨rest', hrest, rfl⟩ := Option.map_eq_some_iff.mp h
      exact .cons (.refl frame) (ih hrest)

/-- An assignment gives a frame of a call no new name. -/
theorem afterCall_set (fs : Frames) (key : String) (value : Ref) :
    fs.AfterCall (fs.set key value) := by
  unfold set
  split
  · next calls hassign => exact ⟨same_of_assign? hassign, .refl _, rfl⟩
  · exact ⟨List.forall₂_refl _, ⟨rfl, rfl, rfl⟩, rfl⟩

theorem afterList_modifyTop (fs : Frames) {f : Frame → Frame}
    (hf : ∀ frame : Frame, frame.SameCall (f frame)) : fs.AfterList (fs.modifyTop f) := by
  obtain ⟨calls, globals⟩ := fs
  cases calls with
  | nil => exact ⟨.nil, .nil, hf _, fun hne => absurd rfl hne⟩
  | cons frame rest =>
    exact ⟨.cons (hf frame) (List.forall₂_refl _), List.forall₂_refl _, .refl _, fun _ => rfl⟩

/-- The innermost frame belongs to the call itself. -/
theorem inCall_modifyTop (fs : Frames) (f : Frame → Frame) : fs.InCall (fs.modifyTop f) := by
  obtain ⟨calls, globals⟩ := fs
  cases calls with
  | nil => exact fun hne => absurd rfl hne
  | cons frame rest => exact fun _ => ⟨List.cons_ne_nil _ _, Std.Refl.refl _⟩

/-- A line that is put back was never changed. -/
theorem AfterList.of_line {fs fs' : Frames} {line : Option Ref}
    (h : (fs.modifyTop fun frame => { frame with line }).AfterList fs') :
    fs.AfterList (fs'.modifyTop fun frame => { frame with line := fs.top.line }) := by
  obtain ⟨calls, globals⟩ := fs
  obtain ⟨calls', globals'⟩ := fs'
  cases calls with
  | nil =>
    obtain ⟨hcalls, -, hglobals, -⟩ := h
    cases hcalls
    exact ⟨.nil, .nil, ⟨hglobals.procedure, hglobals.node, rfl⟩, fun hne => absurd rfl hne⟩
  | cons frame rest =>
    obtain ⟨hcalls, hcallers, hglobals, htest⟩ := h
    cases hcalls with
    | cons htop hrest =>
      exact ⟨.cons ⟨htop.procedure, htop.node, rfl⟩ hrest, hcallers, hglobals,
        fun _ => htest (List.cons_ne_nil _ _)⟩

/-- A frame that was pushed for a call is taken away after it. -/
theorem InCall.afterCall_pop {fs fs' : Frames} {procedure node : Ref}
    (h : (fs.push procedure node).InCall fs') : fs.AfterCall fs'.pop :=
  (h (List.cons_ne_nil _ _)).2

end Frames

/-! ### Running code -/

/-- Two states of an evaluator whose frames are related. -/
def World.Across (S : Frames → Frames → Prop) (w w' : World) : Prop :=
  S w.frames w'.frames

instance {S : Frames → Frames → Prop} [IsPreorder Frames S] : Lasting (World.Across S) where
  quiet {w w'} h := by
    rw [World.Across, h.frames]
    exact Std.Refl.refl _
  trans {_ _ _} h h' := IsTrans.trans (r := S) _ _ _ h h'

instance : Lasting.Scoped (World.Across Frames.AfterList) where
  set w key value := (w.frames.afterCall_set key value).afterList
  bind w key value := Frames.afterList_modifyTop w.frames
    (f := fun frame => { frame with locals := frame.locals.insert key value })
    fun _ => ⟨rfl, rfl, rfl⟩
  test w truth := Frames.afterList_modifyTop w.frames
    (f := fun frame => { frame with test := some truth }) fun _ => ⟨rfl, rfl, rfl⟩

instance (f : Frame → Frame) :
    Run.Keeps (World.Across Frames.InCall) (Run.modifyFrames fun fs => fs.modifyTop f) :=
  ⟨fun {w _ _} h => by cases h; exact w.frames.inCall_modifyTop f⟩

/-- Lists and procedures leave the frames in place. -/
class Reenter.InPlace (re : Reenter) : Prop where
  list : ∀ pins r, Run.Keeps (World.Across Frames.AfterList) (re.list pins r)
  procedure : ∀ pins node args,
    Run.Keeps (World.Across Frames.AfterCall) (re.procedure pins node args)

attribute [instance] Reenter.InPlace.list Reenter.InPlace.procedure

section

variable {re : Reenter} [hre : Reenter.InPlace re]

instance : Reenter.Keeps (World.Across Frames.AfterList) re where
  list := hre.list
  procedure pins node args := (hre.procedure pins node args).mono Frames.AfterCall.afterList

instance (pins : Pins) (helper : Helper) (args : List Value) :
    Run.Keeps (World.Across Frames.AfterList) (callHelper re pins helper args) := by
  by_cases hhelper : helper = .setRepcount
  · subst hhelper
    exact ⟨fun {w _ _} h => by cases h; exact Std.Refl.refl w.frames⟩
  · exact Permissive.Scoped.callHelper re pins hhelper args

/-- A list runs its line and puts the old one back, in the frame that is innermost again. -/
instance (fuel : Nat) (pins : Pins) (list : Ref) :
    Run.Keeps (World.Across Frames.AfterList) (runListWith re fuel pins list) := by
  refine .bind inferInstance fun compiled => ?_
  cases compiled with
  | error failure => infer_instance
  | ok entry =>
    refine ⟨fun {w r w'} h => ?_⟩
    dsimp only at h
    rw [Run.get_bind] at h
    obtain ⟨_, w₁, hset, hrest⟩ := Run.bind_eq_ok h
    cases hset
    obtain ⟨result, w₂, hcode, hback⟩ := Run.bind_eq_ok hrest
    cases hback
    have hran : World.Across Frames.AfterList _ w₂ := Run.Keeps.keeps hcode
    exact Frames.AfterList.of_line hran

/-! ### Calls -/

instance (pins : Pins) (r : Ref) : Run.Keeps (World.Across Frames.InCall) (re.list pins r) :=
  (hre.list pins r).mono Frames.AfterList.inCall

instance (fuel : Nat) (pins : Pins) (code : Linked) (block : Int) :
    Run.Keeps (World.Across Frames.InCall) (runCode re fuel pins code block) :=
  Run.Keeps.mono (R := World.Across Frames.AfterList) inferInstance Frames.AfterList.inCall

/-- An activation takes away the frame it pushed. -/
instance (fuel : Nat) (pins : Pins) (procedure call : Ref) (args : List Ref) :
    Run.Keeps (World.Across Frames.AfterCall) (invoke re fuel pins procedure call args) := by
  refine .bind inferInstance fun h => ?_
  split
  · infer_instance
  split
  · infer_instance
  split
  · infer_instance
  · refine ⟨fun {w r w'} hrun => ?_⟩
    rw [Run.modifyFrames_bind] at hrun
    obtain ⟨result, w₁, hbody, hpop⟩ := Run.bind_eq_ok hrun
    cases hpop
    have hinCall : World.Across Frames.InCall _ w₁ := Run.Keeps.keeps hbody
    exact Frames.InCall.afterCall_pop hinCall

end

/-- The engine leaves the frames in place, at any depth. -/
instance inPlace_engine (fuel : Nat) : Reenter.InPlace (engine fuel) := by
  induction fuel with
  | zero =>
    exact ⟨fun _ _ => inferInstanceAs (Run.Keeps _ (throw _)),
      fun _ _ _ => inferInstanceAs (Run.Keeps _ (throw _))⟩
  | succ fuel ih =>
    exact ⟨fun pins list =>
        inferInstanceAs (Run.Keeps _ (runListWith (engine fuel) fuel pins list)),
      fun pins node args =>
        inferInstanceAs (Run.Keeps _ (runCalls (engine fuel) fuel pins fuel _))⟩

/-- **Frames stay in place.** However a list or a call ends, there are as many frames as before, and
each belongs to the same call and runs the same line. After a list, names and tests may have changed
in the frame it ran in and names among the globals; after a call, no test has changed, and names
only among the globals. -/
theorem frames_inPlace (fuel : Nat) (pins : Pins) (w w' : World) (r : Ref) :
    (∀ list, (engine fuel).list pins list w = .ok (r, w') →
      w'.frames.depth = w.frames.depth ∧ w.frames.AfterList w'.frames) ∧
    ∀ node args, (engine fuel).procedure pins node args w = .ok (r, w') →
      w'.frames.depth = w.frames.depth ∧ w.frames.AfterCall w'.frames := by
  refine ⟨fun list h => ?_, fun node args h => ?_⟩
  · have hafter : w.frames.AfterList w'.frames := ((inPlace_engine fuel).list pins list).keeps h
    exact ⟨hafter.depth_eq, hafter⟩
  · have hafter : w.frames.AfterCall w'.frames :=
      ((inPlace_engine fuel).procedure pins node args).keeps h
    exact ⟨hafter.afterList.depth_eq, hafter⟩

namespace Unwound

/-- A procedure that binds `x` and then calls another one, which nobody defined. -/
def outer : Sketch :=
  .procedure "outer" [] [] none none
    (.code [[.call "local" [.literal (.text "x")]], [.procedureCall "inner" []]]) []

/-- The procedure, a call of it, and a list that binds `y` and makes the same call. -/
def made : (Ref × Ref × Ref) × Heap :=
  (do
    let procedure ← outer.build []
    let call ← Sketch.build [] (.procedureCall "outer" [])
    let list ← Sketch.build []
      (.code [[.call "local" [.literal (.text "y")]], [.procedureCall "outer" []]])
    return (procedure, call, list) : Making (Ref × Ref × Ref)) {}

/-- The procedure is defined, and a call of it is running. -/
def world : World where
  heap := made.2
  procedures := [("OUTER", made.1.1)]
  frames := { calls := [{ procedure := made.1.1, node := made.1.2.1, test := some true }] }

/-- The error of the inner call ends the list and the call, and `x` is gone. -/
theorem frames_unwound :
    (∃ r w', (engine 9).list [] made.1.2.2 world = .ok (r, w') ∧ (w'.heap.get r).isFlow = true ∧
      w'.frames.top.locals.has "Y" = true ∧ w'.frames.depth = world.frames.depth ∧
      world.frames.AfterList w'.frames) ∧
    ∃ r w', (engine 9).procedure [] made.1.2.1 [] world = .ok (r, w') ∧
      (w'.heap.get r).isFlow = true ∧ w'.frames.depth = world.frames.depth ∧
      world.frames.AfterCall w'.frames := by
  have hlist := eq_ok_ran (x := (engine 9).list [] made.1.2.2 world) (by decide +kernel)
  have hcall := eq_ok_ran (x := (engine 9).procedure [] made.1.2.1 [] world) (by decide +kernel)
  exact ⟨⟨_, _, hlist, by decide +kernel, by decide +kernel, (frames_inPlace ..).1 _ hlist⟩,
    ⟨_, _, hcall, by decide +kernel, (frames_inPlace ..).2 _ _ hcall⟩⟩

end Unwound

end LogoEngine
