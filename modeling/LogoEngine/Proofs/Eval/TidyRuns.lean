import LogoEngine.Proofs.Eval.Moments
import LogoEngine.Proofs.Lower.Tidy

/-!
# Runs on data

Whatever the engine runs leaves a tidy evaluator tidy, if lists to be run, the defaults and bodies
of procedures and the inputs of calls are data. The same goes for everything on the way: each moment
of a run has only data to run, to store and to pass on, and so has the next one.

Main statements: `tidy_engine`, and `Moment.tidy_of_next` for runs that never end.
-/

namespace LogoEngine

variable {w w' : World}

/-! ### Pieces of a run -/

theorem Run.extends {α : Type} {m : Run α} [Run.Changes m] {a : α} (h : m w = .ok (a, w')) :
    w.heap.Extends w'.heap :=
  (Run.Changes.changes h).heap_extends

theorem World.Tidy.withLine (hw : w.Tidy) {line : Option Ref}
    (hline : ∀ r ∈ line, w.heap.isData r = true) :
    World.Tidy { w with frames := w.frames.modifyTop fun frame => { frame with line } } :=
  hw.withFrames (hw.frames.modifyTop fun _ hframe => ⟨hframe.locals, hframe.node, hline⟩)

/-- The body and the defaults of a procedure are data. -/
theorem Heap.Tidy.procedure {h : Heap} (ht : h.Tidy) {r : Ref} {p : Procedure}
    (hp : h.procedure? r = some p) :
    h.isData p.body = true ∧ ∀ param ∈ p.optional, h.isData param.2 = true := by
  have hobject := ht.objects r
  unfold Heap.procedure? at hp
  generalize h.get r = o at hp hobject
  cases o <;> cases hp
  exact hobject

/-- The call a token stands for has a name, and inputs that are data. -/
theorem Heap.Tidy.continuation {h : Heap} (ht : h.Tidy) {r source call : Ref} {args : List Ref}
    (hget : h.get r = .continuation source call args) :
    h.Named call ∧ ∀ arg ∈ args, h.isData arg = true := by
  have hobject := ht.objects r
  rwa [hget] at hobject

/-- Binding the required inputs. -/
theorem tidy_bindRequired {names : List String} {args left : List Ref} (hw : w.Tidy)
    (hargs : ∀ r ∈ args, w.heap.isData r = true)
    (h : bindRequired names args w = .ok (left, w')) :
    w'.Tidy ∧ ∀ r ∈ left, w'.heap.isData r = true := by
  induction names generalizing args w with
  | nil =>
    cases h
    exact ⟨hw, hargs⟩
  | cons name names ih =>
    have hvalue : w.heap.isData (args.head?.getD Ref.nothing) = true ∨
        args.head?.getD Ref.nothing = Ref.nothing := by
      cases args with
      | nil => exact .inr rfl
      | cons arg args => exact .inl (hargs arg List.mem_cons_self)
    exact ih (hw.withFrames (hw.frames.bind name hvalue))
      (fun r hr => hargs r (List.mem_of_mem_tail hr)) h

/-- Binding the rest of the inputs to a list. -/
theorem tidy_bindRest {rest : Option String} {args : List Ref} {u : Unit} (hw : w.Tidy)
    (hargs : ∀ r ∈ args, w.heap.isData r = true) (h : bindRest rest args w = .ok (u, w')) :
    w'.Tidy := by
  cases rest with
  | none =>
    cases h
    exact hw
  | some name =>
    obtain ⟨list, w₁, hmade, hbound⟩ := Run.bind_eq_ok h
    obtain ⟨hw₁, hlist⟩ := hw.making (.newList hw.heap hargs) hmade
    cases hbound
    exact hw₁.withFrames (hw₁.frames.bind name (.inl hlist))

instance (a : Activation) (value : Option Ref) : Run.Keeps World.StaysTidy (a.finish value) := by
  unfold Activation.finish
  split <;> infer_instance

instance (a : Activation) (r : Ref) : Run.Keeps World.StaysTidy (a.conclude r) := by
  unfold Activation.conclude
  refine .bind inferInstance fun h => ?_
  split
  · infer_instance
  · infer_instance
  · split <;> infer_instance

section

variable {re : Reenter} [hre : re.Tidy]

/-- Binding the optional inputs, some to what their defaults come to. -/
theorem tidy_bindOptional [re.Changes] {pins : Pins} {call : Ref} {params : List (String × Ref)}
    {args : List Ref} {result : Except Ref (List Ref)} (hw : w.Tidy)
    (hparams : ∀ param ∈ params, w.heap.isData param.2 = true)
    (hargs : ∀ r ∈ args, w.heap.isData r = true)
    (h : bindOptional re pins call params args w = .ok (result, w')) :
    w'.Tidy ∧ ∀ left, result = .ok left → ∀ r ∈ left, w'.heap.isData r = true := by
  -- on the inputs: one that is given is data already, and a default must come to data to be bound
  induction params generalizing args w with
  | nil =>
    cases h
    refine ⟨hw, fun left hleft => ?_⟩
    cases hleft
    exact hargs
  | cons param params ih =>
    obtain ⟨name, default⟩ := param
    rw [List.forall_mem_cons] at hparams
    cases args with
    | cons arg args =>
      rw [List.forall_mem_cons] at hargs
      exact ih (hw.withFrames (hw.frames.bind name (.inl hargs.1))) hparams.2 hargs.2 h
    | nil =>
      obtain ⟨value, w₁, hrun, hrest⟩ := Run.bind_eq_ok h
      have hw₁ := hre.list hw hparams.1 hrun
      have hh := Run.extends hrun
      rw [Run.heap_bind] at hrest
      split at hrest
      · cases hrest
        exact ⟨hw₁, fun _ hleft => nomatch hleft⟩
      · split at hrest
        · next hdata =>
          exact ih (hw₁.withFrames (hw₁.frames.bind name (.inl hdata)))
            (fun param hparam => hh.isData (hparams.2 param hparam)) (by simp) hrest
        · obtain ⟨error, w₂, hraise, hdone⟩ := Run.bind_eq_ok hrest
          cases hdone
          exact ⟨Run.Keeps.keeps (R := World.StaysTidy) hraise hw₁, fun _ hleft => nomatch hleft⟩

variable [re.Changes]

theorem tidy_runCode {fuel : Nat} {pins : Pins} {code : Linked} {block : Int} {r : Ref}
    (hw : w.Tidy) (hcode : code.Tidy w.heap)
    (h : runCode re fuel pins code block w = .ok (r, w')) : w'.Tidy :=
  (hcode.tidy_of_reaches hw).2 r w' (Machine.exists_runCode_iff.mp ⟨fuel, h⟩)

/-- A list runs as the running line, and the line from before is put back. -/
theorem tidy_runListWith {fuel : Nat} {pins : Pins} {list r : Ref} (hw : w.Tidy)
    (hlist : w.heap.isData list = true) (h : runListWith re fuel pins list w = .ok (r, w')) :
    w'.Tidy := by
  obtain ⟨result, w₁, hcompile, hrest⟩ := Run.bind_eq_ok h
  obtain ⟨hw₁, hcode⟩ := tidy_compileSource hw hcompile
  have hlist₁ := (Run.extends hcompile).isData hlist
  cases result with
  | error failure => exact Run.Keeps.keeps (R := World.StaysTidy) hrest hw₁
  | ok entry =>
    dsimp only at hrest
    rw [Run.get_bind, Run.modifyFrames_bind] at hrest
    obtain ⟨result, w₂, hrun, hdone⟩ := Run.bind_eq_ok hrest
    have hline : ∀ r ∈ some list, w₁.heap.isData r = true := by simpa using hlist₁
    have hw₂ := hw₁.withLine hline
    have hw₃ := tidy_runCode hw₂ (hcode entry rfl) hrun
    have hsaved := fun r hr => (Run.extends hrun).isData (hw₁.frames.top.line r hr)
    cases hdone
    exact hw₃.withLine hsaved

/-- A body, run again for each jump to a label. -/
theorem tidy_runJumps {loop fuel : Nat} {pins : Pins} {procedure r : Ref} {code : Linked}
    {block : Int} (hw : w.Tidy) (hcode : code.Tidy w.heap)
    (h : runJumps re loop pins procedure code fuel block w = .ok (r, w')) : w'.Tidy := by
  induction fuel generalizing block w with
  | zero => cases h
  | succ fuel ih =>
    obtain ⟨result, w₁, hrun, hrest⟩ := Run.bind_eq_ok h
    have hw₁ := tidy_runCode hw hcode hrun
    rw [Run.heap_bind] at hrest
    cases hget : w₁.heap.get result with
    | goto source tag =>
      rw [hget] at hrest
      cases htarget : (w₁.heap.procedure? procedure).bind
          fun p => p.labels.get? (w₁.heap.keyOf tag) with
      | some target =>
        simp only [htarget] at hrest
        exact ih hw₁ (hcode.mono (Run.extends hrun)) hrest
      | none =>
        simp only [htarget] at hrest
        exact Run.Keeps.keeps (R := World.StaysTidy) hrest hw₁
    | _ =>
      rw [hget] at hrest
      cases hrest
      exact hw₁

/-- The inputs are bound, and the body runs. -/
theorem tidy_runBody {fuel : Nat} {pins : Pins} {procedure call r : Ref} {p : Procedure}
    {args : List Ref} (hw : w.Tidy) (hbody : w.heap.isData p.body = true)
    (hoptional : ∀ param ∈ p.optional, w.heap.isData param.2 = true)
    (hargs : ∀ r ∈ args, w.heap.isData r = true)
    (h : runBody re fuel pins procedure call p args w = .ok (r, w')) : w'.Tidy := by
  obtain ⟨left, w₁, hrequired, hrest⟩ := Run.bind_eq_ok h
  obtain ⟨hw₁, hleft⟩ := tidy_bindRequired hw hargs hrequired
  have hh₁ := Run.extends hrequired
  obtain ⟨bound, w₂, hbound, hrest⟩ := Run.bind_eq_ok hrest
  obtain ⟨hw₂, hmore⟩ :=
    tidy_bindOptional hw₁ (fun param hparam => hh₁.isData (hoptional param hparam)) hleft hbound
  cases bound with
  | error result =>
    cases hrest
    exact hw₂
  | ok more =>
    obtain ⟨_, w₃, hlist, hrest⟩ := Run.bind_eq_ok hrest
    have hw₃ := tidy_bindRest hw₂ (hmore more rfl) hlist
    obtain ⟨result, w₄, hcompile, hrest⟩ := Run.bind_eq_ok hrest
    obtain ⟨hw₄, hcode⟩ := tidy_compileSource hw₃ hcompile
    have hh := hh₁.trans ((Run.extends hbound).trans ((Run.extends hlist).trans
      (Run.extends hcompile)))
    cases result with
    | error failure => exact Run.Keeps.keeps (R := World.StaysTidy) hrest hw₄
    | ok entry =>
      exact tidy_runJumps (hw₄.withLine (by simpa using hh.isData hbody)) (hcode entry rfl) hrest

/-- One activation of a procedure, in a frame of its own. -/
theorem tidy_invoke {fuel : Nat} {pins : Pins} {procedure call r : Ref} {args : List Ref}
    (hw : w.Tidy) (hcall : w.heap.Named call) (hargs : ∀ r ∈ args, w.heap.isData r = true)
    (h : invoke re fuel pins procedure call args w = .ok (r, w')) : w'.Tidy := by
  unfold invoke at h
  rw [Run.heap_bind] at h
  cases hp : w.heap.procedure? procedure with
  | none =>
    rw [hp] at h
    exact Run.Keeps.keeps (R := World.StaysTidy) (m := raise _ _) h hw
  | some p =>
    rw [hp] at h
    dsimp only at h
    split at h
    · exact Run.Keeps.keeps (R := World.StaysTidy) h hw
    · split at h
      · exact Run.Keeps.keeps (R := World.StaysTidy) h hw
      · obtain ⟨hbody, hoptional⟩ := hw.heap.procedure hp
        rw [Run.modifyFrames_bind] at h
        obtain ⟨result, w₁, hrun, hdone⟩ := Run.bind_eq_ok h
        have hw₁ := tidy_runBody (hw.withFrames (hw.frames.push procedure hcall)) hbody hoptional
          hargs hrun
        cases hdone
        exact hw₁.withFrames hw₁.frames.pop

/-- A call, and the tail calls it leads to. -/
theorem tidy_runCalls {loop fuel : Nat} {pins : Pins} {a : Activation} {r : Ref} (hw : w.Tidy)
    (hcall : w.heap.Named a.call) (hargs : ∀ r ∈ a.args, w.heap.isData r = true)
    (h : runCalls re loop pins fuel a w = .ok (r, w')) : w'.Tidy := by
  induction fuel generalizing a w with
  | zero => cases h
  | succ fuel ih =>
    unfold runCalls at h
    rw [Run.get_bind] at h
    cases hprocedure : w.procedures.get? (w.heap.keyOf (w.heap.displayName a.call)) with
    | none =>
      rw [hprocedure] at h
      exact Run.Keeps.keeps (R := World.StaysTidy) (m := raise _ _) h hw
    | some procedure =>
      rw [hprocedure] at h
      dsimp only at h
      split at h
      · exact Run.Keeps.keeps (R := World.StaysTidy) h hw
      · obtain ⟨result, w₁, hinvoke, hrest⟩ := Run.bind_eq_ok h
        have hw₁ := tidy_invoke hw hcall hargs hinvoke
        rw [Run.heap_bind] at hrest
        cases hget : w₁.heap.get result with
        | continuation source call args =>
          rw [hget] at hrest
          obtain ⟨hcall₁, hargs₁⟩ := hw₁.heap.continuation hget
          exact ih (a := a.tailCall w₁.heap source call args) hw₁ hcall₁ hargs₁ hrest
        | _ =>
          have hlast : a.conclude result w₁ = .ok (r, w') := by
            rw [Activation.conclude, Run.heap_bind, hget]
            rw [hget] at hrest
            exact hrest
          exact Run.Keeps.keeps (R := World.StaysTidy) hlast hw₁

end

/-- **The engine leaves a tidy evaluator tidy**, at any depth. -/
instance tidy_engine (fuel : Nat) : (engine fuel).Tidy := by
  induction fuel with
  | zero =>
    constructor
    · rintro _ _ _ _ _ _ _ ⟨⟩
    · rintro _ _ _ _ _ _ _ _ _ ⟨⟩
  | succ fuel ih =>
    constructor
    · intro pins list w r w' hw hlist h
      exact tidy_runListWith hw hlist h
    · intro pins node args w r w' hw hnode hargs h
      exact tidy_runCalls (a := { node, call := node, args }) hw hnode hargs h

/-! ### The top level -/

instance (source : Ref) : Run.Keeps World.StaysTidy (strayToken source) := by
  unfold strayToken; infer_instance

theorem tidy_execute {fuel : Nat} {pins : Pins} {list : Ref} {result : Except Signal (Option Ref)}
    (hw : w.Tidy) (hlist : w.heap.isData list = true)
    (h : execute fuel pins list w = .ok (result, w')) : w'.Tidy := by
  obtain ⟨r, w₁, hrun, hrest⟩ := Run.bind_eq_ok h
  have hw₁ := (tidy_engine fuel).list hw hlist hrun
  refine (Run.Keeps.bind (R := World.StaysTidy) inferInstance fun h => ?_).keeps hrest hw₁
  split <;> infer_instance

theorem tidy_runNode {fuel : Nat} {pins : Pins} {node r : Ref} (hw : w.Tidy)
    (h : runNode fuel pins node w = .ok (r, w')) : w'.Tidy := by
  obtain ⟨result, w₁, hcompile, hrest⟩ := Run.bind_eq_ok h
  obtain ⟨hw₁, hcode⟩ := tidy_compileNode hw hcompile
  cases result with
  | error failure => exact Run.Keeps.keeps (R := World.StaysTidy) hrest hw₁
  | ok entry => exact tidy_runCode hw₁ (hcode entry rfl) hrest

/-! ### Moments -/

namespace Moment

/-- There is only data to run, to store and to pass on. -/
def Tidy : Moment → Prop
  | list _ source w => w.Tidy ∧ w.heap.isData source = true
  | code pins linked block c => ∃ n w, w.Tidy ∧ linked.Tidy w.heap ∧
      Machine.Reaches (engine n) pins linked block (Machine.start linked w) c
  | call _ a w => w.Tidy ∧ w.heap.Named a.call ∧ ∀ r ∈ a.args, w.heap.isData r = true
  | inputs _ _ _ p args w => w.Tidy ∧ w.heap.isData p.body = true ∧
      (∀ param ∈ p.optional, w.heap.isData param.2 = true) ∧ ∀ r ∈ args, w.heap.isData r = true
  | body _ _ linked _ w => w.Tidy ∧ linked.Tidy w.heap

variable {m m' : Moment}

/-- The evaluator between two instructions, and what the next one gives to its helper. -/
theorem Tidy.config {pins : Pins} {linked : Linked} {block : Int} {c : Config}
    (h : (code pins linked block c).Tidy) : c.world.Tidy ∧ c.Fit := by
  obtain ⟨n, w, hw, hcode, hreaches⟩ := h
  exact (hcode.tidy_of_reaches hw).1 c hreaches

theorem Tidy.start {pins : Pins} {linked : Linked} {block : Int} (hw : w.Tidy)
    (hcode : linked.Tidy w.heap) : (code pins linked block (Machine.start linked w)).Tidy :=
  ⟨0, w, hw, hcode, .refl⟩

theorem Tidy.world (h : m.Tidy) : m.world.Tidy := by
  cases m with
  | code => exact h.config.1
  | list | call | inputs | body => exact h.1

/-- What follows a moment with the same frames. -/
theorem Stays.tidy (h : m.Stays m') (hm : m.Tidy) : m'.Tidy := by
  cases h with
  | listStarts hcompile =>
    obtain ⟨hw₁, hcode⟩ := tidy_compileSource hm.1 hcompile
    have hlist := (Run.extends hcompile).isData hm.2
    exact .start (hw₁.withLine (by simpa using hlist)) (hcode _ rfl)
  | @moves n _ _ _ _ _ hmoves =>
    obtain ⟨n', w, hw, hcode, hreaches⟩ := hm
    -- enough fuel for what happened before and for the step
    have hbefore := hreaches.le (engine_le (Nat.le_max_left n' n))
    exact ⟨max n' n, w, hw, hcode,
      hbefore.tail (Machine.step_le (engine_le (Nat.le_max_right n' n)) hmoves)⟩
  | runsList hrest hhelper =>
    obtain ⟨hw, hfit⟩ := hm.config
    refine ⟨hw, ?_⟩
    rcases hhelper with rfl | rfl <;> exact hfit _ _ _ _ hrest
  | makesCall hrest =>
    obtain ⟨hw, hfit⟩ := hm.config
    exact ⟨hw, hfit _ _ _ _ hrest⟩
  | passes hpasses =>
    obtain ⟨r, source, call, args, ⟨n, procedure, -, -, hinvoke⟩, hget, rfl⟩ := hpasses
    have hw' := tidy_invoke hm.1 hm.2.1 hm.2.2 hinvoke
    exact ⟨hw', hw'.heap.continuation hget⟩
  | runsDefault hrequired hoptional hdone =>
    obtain ⟨hw, -, hdefaults, hargs⟩ := hm
    obtain ⟨hw₁, hleft⟩ := tidy_bindRequired hw hargs hrequired
    have hdefaults₁ := fun param hparam => (Run.extends hrequired).isData (hdefaults param hparam)
    rw [hoptional, List.forall_mem_append, List.forall_mem_cons] at hdefaults₁
    exact ⟨(tidy_bindOptional hw₁ hdefaults₁.1 hleft hdone).1,
      (Run.extends hdone).isData hdefaults₁.2.1⟩
  | bodyStarts hrequired hoptional hrest hcompile =>
    obtain ⟨hw, hbody, hdefaults, hargs⟩ := hm
    obtain ⟨hw₁, hleft⟩ := tidy_bindRequired hw hargs hrequired
    have hh₁ := Run.extends hrequired
    obtain ⟨hw₂, hmore⟩ :=
      tidy_bindOptional hw₁ (fun param hparam => hh₁.isData (hdefaults param hparam)) hleft hoptional
    have hw₃ := tidy_bindRest hw₂ (hmore _ rfl) hrest
    obtain ⟨hw₄, hcode⟩ := tidy_compileSource hw₃ hcompile
    have hh := hh₁.trans ((Run.extends hoptional).trans ((Run.extends hrest).trans
      (Run.extends hcompile)))
    exact ⟨hw₄.withLine (by simpa using hh.isData hbody), hcode _ rfl⟩
  | codeStarts => exact .start hm.1 hm.2
  | jumps hcode =>
    exact ⟨tidy_runCode hm.1 hm.2 hcode, hm.2.mono (Run.extends hcode)⟩

/-- A call that gets a frame. -/
theorem Opens.tidy (h : m.Opens m') (hm : m.Tidy) : m'.Tidy := by
  cases h with
  | @intro _ _ procedure _ _ _ _ hp =>
    obtain ⟨hw, hcall, hargs⟩ := hm
    obtain ⟨hbody, hoptional⟩ := hw.heap.procedure hp
    exact ⟨hw.withFrames (hw.frames.push procedure hcall), hbody, hoptional, hargs⟩

/-- **All along a run there is only data to run, to store and to pass on.** -/
theorem tidy_of_next (h : Relation.ReflTransGen Next m m') (hm : m.Tidy) : m'.Tidy := by
  induction h with
  | refl => exact hm
  | tail _ hlast ih => exact hlast.elim (fun hstays => hstays.tidy ih) fun hopens => hopens.tidy ih

end Moment

end LogoEngine
