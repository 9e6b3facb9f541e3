import LogoEngine.Proofs.Eval.Fuel
import LogoEngine.Proofs.Eval.Pins

/-!
# Chains of tail calls

A procedure that leaves with `STOP`, `OUTPUT` or `.MAYBEOUTPUT` of a call of another one makes a
**tail call**: its frame is gone when the other one starts. A call goes along such a chain until
an activation ends by itself. Only the **last** way out says what must come of that.

Main statements: `procedure_of_chain`, which says what a chain comes to, and when that is what it
would come to if every call were an ordinary one; `procedure_of_tailCall`, which says in what state
a tail call is made.
-/

namespace LogoEngine

/-- Whether a way out takes what the call that it makes comes to. -/
def Demand.accepts (demand : Demand) (value : Option Ref) : Bool :=
  match demand with
  | .stop => value.isNone
  | .output => value.isSome
  | .none | .maybeOutput => true

namespace Activation

/-- The procedure that the present call names comes to a result, given enough fuel. -/
def ComesTo (a : Activation) (pins : Pins) (w : World) (r : Ref) (w' : World) : Prop :=
  ∃ n procedure, w.procedures.get? (w.heap.keyOf (w.heap.displayName a.call)) = some procedure ∧
    w.frames.depth < w.settings.maxDepth ∧
    invoke (engine n) n (.refs (a.node :: a.call :: procedure :: a.source.toList) :: pins) procedure
      a.call a.args w = .ok (r, w')

/-- The activation that follows a tail call. -/
def tailCall (a : Activation) (h : Heap) (source call : Ref) (args : List Ref) : Activation :=
  { a with call, args, demand := .ofSource h source, source := some source }

/-- One activation ends with a tail call, and another one follows. -/
def PassesTo (pins : Pins) (a : Activation) (w : World) (b : Activation) (w' : World) : Prop :=
  ∃ r source call args, a.ComesTo pins w r w' ∧
    w'.heap.get r = .continuation source call args ∧ b = a.tailCall w'.heap source call args

/-- An activation ends by itself, with a value or without one: it leaves with what is no tail call,
or its statements are done. -/
def EndsWith (pins : Pins) (a : Activation) (w : World) (value : Option Ref) (w' : World) : Prop :=
  ∃ r, a.ComesTo pins w r w' ∧
    ((∃ source, w'.heap.get r = .ret source value) ∨
      w'.heap.isFlow r = false ∧ w'.heap.isData r = false ∧ value = none)

/-- A chain of tail calls, from one activation to another. `later` are the activations after the
first. -/
inductive Chain (pins : Pins) :
    Activation → World → List Activation → Activation → World → Prop
  | refl (a : Activation) (w : World) : Chain pins a w [] a w
  | head {a b last : Activation} {w w₁ w₂ : World} {later : List Activation}
      (hpasses : PassesTo pins a w b w₁) (hrest : Chain pins b w₁ later last w₂) :
      Chain pins a w (b :: later) last w₂

/-- What a value comes to if every call of a chain is an ordinary one, and its result is looked at
by the way out that made it: the innermost way out that does not take the value says so, and
without any the value is the result. -/
def nested (a : Activation) (later : List Activation) (value : Option Ref) : Run Ref :=
  match later.reverse.find? fun b => !b.demand.accepts value with
  | some b => b.finish value
  | none => return value.getD a.node

/-! ### One activation -/

theorem finish_of_accepts {a : Activation} {value : Option Ref} (h : a.demand.accepts value = true) :
    a.finish value = return value.getD a.node := by
  rw [Demand.accepts.eq_def] at h
  rw [finish.eq_def]
  cases hdemand : a.demand <;> cases value <;> simp_all

/-- What is made of the result of an activation that is no tail call. -/
def conclude (a : Activation) (r : Ref) : Run Ref := do
  match (← Run.heap).get r with
  | .ret _ value => a.finish value
  | .error _ => return r
  | object => if object.isData then raiseDontSay r else a.finish none

/-- An activation that does not end with a tail call ends the call. -/
theorem ComesTo.exists_runCalls {pins : Pins} {a : Activation} {w w' : World} {r : Ref}
    (hcomes : a.ComesTo pins w r w')
    (hlast : ∀ source call args, w'.heap.get r ≠ .continuation source call args) :
    ∃ least, ∀ n ≥ least, ∀ fuel,
      runCalls (engine n) n pins (fuel + 1) a w = a.conclude r w' := by
  obtain ⟨least, procedure, hprocedure, hdepth, hinvoke⟩ := hcomes
  refine ⟨least, fun n hn fuel => ?_⟩
  have hinvoke' := invoke_le (engine_le hn) hn _ _ _ _ hinvoke
  rw [runCalls, Run.get_bind, hprocedure]
  dsimp only
  rw [if_neg (Nat.not_le.mpr hdepth), Run.bind_of_ok hinvoke', Run.heap_bind, conclude, Run.heap_bind]
  cases hobject : w'.heap.get r with
  | continuation source call args => exact absurd hobject (hlast source call args)
  | _ => rfl

/-- The value of an activation that ends by itself is looked at by the way out that led to it. -/
theorem EndsWith.exists_runCalls {pins : Pins} {a : Activation} {w w' : World}
    {value : Option Ref} (hends : a.EndsWith pins w value w') :
    ∃ least, ∀ n ≥ least, ∀ fuel, runCalls (engine n) n pins (fuel + 1) a w = a.finish value w' := by
  obtain ⟨r, hcomes, hresult⟩ := hends
  rcases hresult with ⟨source, hret⟩ | ⟨hflow, hdata, rfl⟩
  · obtain ⟨least, hruns⟩ := hcomes.exists_runCalls (by simp [hret])
    refine ⟨least, fun n hn fuel => ?_⟩
    rw [hruns n hn, conclude, Run.heap_bind, hret]
  · -- what is neither a token nor data says nothing
    have hflow' : (w'.heap.get r).isFlow = false := hflow
    have hdata' : (w'.heap.get r).isData = false := hdata
    obtain ⟨least, hruns⟩ := hcomes.exists_runCalls <| by
      intro source call args hobject
      simp [hobject, Object.isFlow, Object.hasTag, Object.kind, Kind.tag, flowMask] at hflow'
    refine ⟨least, fun n hn fuel => ?_⟩
    rw [hruns n hn, conclude, Run.heap_bind]
    cases hobject : w'.heap.get r with
    | error | ret =>
      simp [hobject, Object.isFlow, Object.hasTag, Object.kind, Kind.tag, flowMask] at hflow'
    | _ =>
      rw [hobject] at hdata'
      simp only [hdata', Bool.false_eq_true, if_false]

/-- An activation that ends with a tail call goes on with it. -/
theorem PassesTo.exists_runCalls {pins : Pins} {a b : Activation} {w w' : World}
    (hpasses : PassesTo pins a w b w') :
    ∃ least, ∀ n ≥ least, ∀ fuel,
      runCalls (engine n) n pins (fuel + 1) a w = runCalls (engine n) n pins fuel b w' := by
  obtain ⟨r, source, call, args, ⟨least, procedure, hprocedure, hdepth, hinvoke⟩, hresult, rfl⟩ :=
    hpasses
  refine ⟨least, fun n hn fuel => ?_⟩
  have hinvoke' := invoke_le (engine_le hn) hn _ _ _ _ hinvoke
  rw [runCalls, Run.get_bind, hprocedure]
  dsimp only
  rw [if_neg (Nat.not_le.mpr hdepth), Run.bind_of_ok hinvoke', Run.heap_bind, hresult]
  rfl

/-! ### Chains -/

theorem Chain.exists_runCalls {pins : Pins} {a last : Activation} {later : List Activation}
    {w w' w'' : World} {value : Option Ref} (hchain : Chain pins a w later last w')
    (hends : last.EndsWith pins w' value w'') :
    ∃ least, ∀ n ≥ least, ∀ fuel ≥ least,
      runCalls (engine n) n pins fuel a w = last.finish value w'' := by
  induction hchain with
  | refl a w =>
    obtain ⟨least, hruns⟩ := hends.exists_runCalls
    refine ⟨least + 1, fun n hn fuel hfuel => ?_⟩
    obtain ⟨fuel, rfl⟩ : ∃ k, fuel = k + 1 := ⟨fuel - 1, by omega⟩
    exact hruns n (by omega) fuel
  | head hpasses _ ih =>
    obtain ⟨least, hruns⟩ := hpasses.exists_runCalls
    obtain ⟨least', hruns'⟩ := ih hends
    refine ⟨max least least' + 1, fun n hn fuel hfuel => ?_⟩
    obtain ⟨fuel, rfl⟩ : ∃ k, fuel = k + 1 := ⟨fuel - 1, by omega⟩
    rw [hruns n (by omega), hruns' n (by omega) fuel (by omega)]

/-- The node that made the first call is that of every activation of a chain. -/
theorem Chain.node_eq {pins : Pins} {a last : Activation} {later : List Activation}
    {w w' : World} (hchain : Chain pins a w later last w') : last.node = a.node := by
  induction hchain with
  | refl => rfl
  | head hpasses _ ih =>
    obtain ⟨r, source, call, args, -, -, rfl⟩ := hpasses
    exact ih

theorem Chain.getLast?_eq {pins : Pins} {a last : Activation} {later : List Activation}
    {w w' : World} (hchain : Chain pins a w later last w') : later.getLast?.getD a = last := by
  induction hchain with
  | refl => rfl
  | head _ hrest ih =>
    rw [List.getLast?_cons]
    exact ih

/-- As long as the way outs before the last one take the value, or the last one does not, a chain
comes to what it would come to with ordinary calls. -/
theorem Chain.finish_eq_nested {pins : Pins} {a last : Activation} {later : List Activation}
    {w w' : World} {value : Option Ref} (hchain : Chain pins a w later last w')
    (ha : a.demand = .none)
    (hagree : (∀ b ∈ later.dropLast, b.demand.accepts value = true) ∨
      last.demand.accepts value = false) :
    last.finish value = a.nested later value := by
  have hnode := hchain.node_eq
  have hlast := hchain.getLast?_eq
  rcases List.eq_nil_or_concat later with rfl | ⟨before, b, rfl⟩
  · obtain rfl : a = last := hlast
    exact finish_of_accepts (by rw [ha]; rfl)
  obtain rfl : b = last := by simpa using hlast
  rw [nested]
  simp only [List.concat_eq_append, List.reverse_append, List.reverse_singleton, List.singleton_append]
  by_cases hb : b.demand.accepts value = true
  · -- nobody complains
    have hbefore : before.reverse.find? (fun b => !b.demand.accepts value) = none := by
      have hall := hagree.resolve_right (by simp [hb])
      simp only [List.concat_eq_append, List.dropLast_concat] at hall
      rw [List.find?_eq_none]
      intro c hc
      simp [hall c (List.mem_reverse.mp hc)]
    rw [List.find?_cons_of_neg (by simp [hb]), hbefore, finish_of_accepts hb, hnode]
  · rw [List.find?_cons_of_pos (by simpa using hb)]

end Activation

/-- **What a chain of tail calls comes to.** When its last activation ends by itself, the last way
out alone says what must come of it: `OUTPUT` asks for a value and `STOP` for none, and otherwise
the value, or that there is none, is the result of the first call. It is what ordinary calls would
come to as long as no earlier way out has something to say that the last one has not. -/
theorem procedure_of_chain {pins : Pins} {node : Ref} {args : List Ref} {later : List Activation}
    {last : Activation} {w w' w'' : World} {value : Option Ref}
    (hchain : Activation.Chain pins { node, call := node, args } w later last w')
    (hends : last.EndsWith pins w' value w'') :
    ∃ least, ∀ n ≥ least,
      (last.demand = .output → value = none → (engine n).procedure pins node args w =
        raiseDidntOutput last.call (last.source.getD node) w'') ∧
      (∀ v, last.demand = .stop → value = some v →
        (engine n).procedure pins node args w = raiseDontSay v w'') ∧
      (last.demand.accepts value = true →
        (engine n).procedure pins node args w = .ok (value.getD node, w'')) ∧
      ((∀ b ∈ later.dropLast, b.demand.accepts value = true) ∨ last.demand.accepts value = false →
        (engine n).procedure pins node args w =
          Activation.nested { node, call := node, args } later value w'') := by
  obtain ⟨least, hruns⟩ := hchain.exists_runCalls hends
  have hnode : last.node = node := hchain.node_eq
  refine ⟨least + 1, fun n hn => ?_⟩
  obtain ⟨n, rfl⟩ : ∃ k, n = k + 1 := ⟨n - 1, by omega⟩
  have hprocedure : (engine (n + 1)).procedure pins node args w = last.finish value w'' :=
    hruns n (by omega) n (by omega)
  rw [hprocedure]
  -- the result is `last.finish value`, and each part reads it at another demand
  refine ⟨?_, ?_, ?_, ?_⟩
  · rintro hdemand rfl
    simp only [Activation.finish, hdemand, hnode]
  · rintro v hdemand rfl
    simp only [Activation.finish, hdemand]
  · intro haccepts
    rw [Activation.finish_of_accepts haccepts, hnode]
    rfl
  · intro hagree
    rw [hchain.finish_eq_nested rfl hagree]

/-! ### Where a tail call is made -/

namespace Activation

/-- The body of the procedure that the present call names comes to a result, in the frame of its
own. -/
def BodyComesTo (a : Activation) (pins : Pins) (w : World) (r : Ref) (w₁ : World) : Prop :=
  ∃ n procedure p, w.procedures.get? (w.heap.keyOf (w.heap.displayName a.call)) = some procedure ∧
    w.frames.depth < w.settings.maxDepth ∧ w.heap.procedure? procedure = some p ∧
    p.minInputs ≤ a.args.length ∧ (p.maxInputs.any (· < a.args.length)) = false ∧
    runBody (engine n) n (.refs (a.node :: a.call :: procedure :: a.source.toList) :: pins) procedure
      a.call p a.args { w with frames := w.frames.push procedure a.call } = .ok (r, w₁)

/-- The frame is gone when the result is looked at. -/
theorem BodyComesTo.comesTo {a : Activation} {pins : Pins} {w w₁ : World} {r : Ref}
    (hbody : a.BodyComesTo pins w r w₁) :
    a.ComesTo pins w r { w₁ with frames := w₁.frames.pop } := by
  obtain ⟨n, procedure, p, hprocedure, hdepth, hp, hleast, hmost, hrun⟩ := hbody
  refine ⟨n, procedure, hprocedure, hdepth, ?_⟩
  rw [invoke, Run.heap_bind, hp]
  dsimp only
  rw [if_neg (Nat.not_lt.mpr hleast), if_neg (by simp [hmost]), Run.modifyFrames_bind,
    Run.bind_of_ok hrun, Run.modifyFrames_bind]
  rfl

/-- Activations of the same call do the same, whatever the way to them, where the same is held. -/
theorem ComesTo.congr {a b : Activation} {pins pins' : Pins} {w w' : World} {r : Ref}
    (hcomes : a.ComesTo pins w r w') (hcall : b.call = a.call) (hargs : b.args = a.args)
    (halike : ∀ procedure,
      Pins.Alike (.refs (a.node :: a.call :: procedure :: a.source.toList) :: pins)
        (.refs (b.node :: b.call :: procedure :: b.source.toList) :: pins')) :
    b.ComesTo pins' w r w' := by
  obtain ⟨n, procedure, hprocedure, hdepth, hinvoke⟩ := hcomes
  refine ⟨n, procedure, by rw [hcall]; exact hprocedure, hdepth, ?_⟩
  rw [← invoke_congr (engine_steady n) (halike procedure), hcall, hargs]
  exact hinvoke

end Activation

/-- **A tail call is made from the caller's frames.** When a procedure ends with a tail call, the
other procedure runs exactly as in an ordinary call that is made where the frame of the first one
is gone: it reads and assigns the variables of the first one's caller. It comes to the same result
in the same state, which the way out then looks at. -/
theorem procedure_of_tailCall {pins : Pins} {node source call r r' : Ref} {args args' : List Ref}
    {w w₁ w' : World}
    (hbody : Activation.BodyComesTo { node, call := node, args } pins w r w₁)
    (htail : w₁.heap.get r = .continuation source call args')
    (hcomes : Activation.ComesTo { node := call, call, args := args' } (.refs [node, source] :: pins)
      { w₁ with frames := w₁.frames.pop } r' w')
    (hlast : ∀ source call args, w'.heap.get r' ≠ .continuation source call args) :
    ∃ least, ∀ n ≥ least,
      (engine n).procedure (.refs [node, source] :: pins) call args'
          { w₁ with frames := w₁.frames.pop } =
        Activation.conclude { node := call, call, args := args' } r' w' ∧
      (engine n).procedure pins node args w =
        Activation.conclude
          (Activation.tailCall { node, call := node, args } w₁.heap source call args') r' w' := by
  have hpasses : Activation.PassesTo pins { node, call := node, args } w _
      { w₁ with frames := w₁.frames.pop } := ⟨r, source, call, args', hbody.comesTo, htail, rfl⟩
  -- both activations hold on to the same objects
  have hcomes' : Activation.ComesTo
      (Activation.tailCall { node, call := node, args } w₁.heap source call args') pins
      { w₁ with frames := w₁.frames.pop } r' w' := by
    refine hcomes.congr rfl rfl fun procedure r => ?_
    simp only [Pins.mem_held_cons, Pin.references, Activation.tailCall, Option.toList, List.mem_cons,
      List.not_mem_nil, or_false]
    grind
  obtain ⟨least₁, hruns₁⟩ := hcomes.exists_runCalls hlast
  obtain ⟨least₂, hruns₂⟩ := hpasses.exists_runCalls
  obtain ⟨least₃, hruns₃⟩ := hcomes'.exists_runCalls hlast
  refine ⟨least₁ + least₂ + least₃ + 3, fun n hn => ?_⟩
  obtain ⟨n, rfl⟩ : ∃ k, n = k + 3 := ⟨n - 3, by omega⟩
  constructor
  · exact hruns₁ (n + 2) (by omega) (n + 1)
  · exact (hruns₂ (n + 2) (by omega) (n + 1)).trans (hruns₃ (n + 2) (by omega) n)

/-! ### Procedures that see different variables -/

/-- The result of a run, and the state it leaves. -/
def ran (x : Except Halt (Ref × World)) : Ref × World := x.toOption.getD (Ref.nothing, {})

theorem eq_ok_ran {x : Except Halt (Ref × World)} (h : x.isOk = true) :
    x = .ok ((ran x).1, (ran x).2) := by
  cases x with
  | error halt => cases h
  | ok out => rfl

/-- What one activation of a procedure comes to, with little fuel. -/
def Activation.outcome (a : Activation) (pins : Pins) (procedure : Ref) (w : World) : Ref × World :=
  ran (invoke (engine 5) 5 (.refs (a.node :: a.call :: procedure :: a.source.toList) :: pins)
    procedure a.call a.args w)

/-- Whether the procedure that the present call names is the given one, and comes to a result with
little fuel. -/
def Activation.runs (a : Activation) (pins : Pins) (procedure : Ref) (w : World) : Bool :=
  w.procedures.get? (w.heap.keyOf (w.heap.displayName a.call)) = some procedure &&
    w.frames.depth < w.settings.maxDepth &&
    (invoke (engine 5) 5 (.refs (a.node :: a.call :: procedure :: a.source.toList) :: pins)
      procedure a.call a.args w).isOk

theorem Activation.comesTo_outcome {a : Activation} {pins : Pins} {procedure : Ref} {w : World}
    (hruns : a.runs pins procedure w = true) :
    a.ComesTo pins w (a.outcome pins procedure w).1 (a.outcome pins procedure w).2 := by
  simp only [runs, Bool.and_eq_true, decide_eq_true_eq] at hruns
  obtain ⟨⟨hprocedure, hdepth⟩, hok⟩ := hruns
  refine ⟨5, procedure, hprocedure, hdepth, ?_⟩
  rw [outcome]
  exact eq_ok_ran hok

/-- Whether an object is the tail call with the given parts. -/
def isTailCall (o : Object) (source call : Ref) : Bool :=
  match o with
  | .continuation source' call' args => source' = source && call' = call && args.isEmpty
  | _ => false

theorem eq_of_isTailCall {o : Object} {source call : Ref} (h : isTailCall o source call = true) :
    o = .continuation source call [] := by
  cases o <;> simp_all [isTailCall]

/-- Whether an object is the end of a procedure with the given value. -/
def isReturn (o : Object) (source value : Ref) : Bool :=
  match o with
  | .ret source' value' => source' = source && value' = some value
  | _ => false

theorem eq_of_isReturn {o : Object} {source value : Ref} (h : isReturn o source value = true) :
    o = .ret source (some value) := by
  cases o <;> simp_all [isReturn]

/-- A procedure with the given inputs. -/
def procedureObject (name : String) (inputs : List String) (body : Nat) : Object :=
  .procedure ⟨name, inputs, [], none, inputs.length, ⟨body⟩, []⟩

namespace Shadow

/-- The statement `output :x`. -/
def outputting : Node :=
  .call ⟨⟨8⟩, 8, ⟨4⟩, .output, .nothing⟩ [.call ⟨⟨7⟩, 7, ⟨3⟩, .valueOf, .datum⟩ [.datum ⟨3⟩]]

/-- The statement `output q`. -/
def passing : Node :=
  .call ⟨⟨10⟩, 10, ⟨4⟩, .output, .nothing⟩ [.call ⟨⟨9⟩, 9, ⟨2⟩, .execProcedure, .datumOrNothing⟩ []]

/-- Two procedures: `p` has an input `x` and does `output q`, and `q` does `output :x`. -/
def heap : Heap where
  objects := #[.nothing, .word (.text "p"), .word (.text "q"), .word (.text "x"),
    .word (.text "output"), .word (.text "outside"), .word (.text "inside"),
    .node ⟨⟨7⟩, 7, ⟨3⟩, .valueOf, .datum⟩ [.datum ⟨3⟩],
    .node ⟨⟨8⟩, 8, ⟨4⟩, .output, .nothing⟩ [.call ⟨⟨7⟩, 7, ⟨3⟩, .valueOf, .datum⟩ [.datum ⟨3⟩]],
    .node ⟨⟨9⟩, 9, ⟨2⟩, .execProcedure, .datumOrNothing⟩ [],
    .node ⟨⟨10⟩, 10, ⟨4⟩, .output, .nothing⟩
      [.call ⟨⟨9⟩, 9, ⟨2⟩, .execProcedure, .datumOrNothing⟩ []],
    .node ⟨⟨11⟩, 11, ⟨1⟩, .execProcedure, .datumOrNothing⟩ [],
    .list ⟨12, none, 1, some [[passing]]⟩, .list ⟨13, none, 1, some [[outputting]]⟩,
    procedureObject "P" ["X"] 12, procedureObject "Q" [] 13]

/-- The procedures are defined, and `x` is `outside` at the top level. -/
def world : World where
  heap := heap
  frames := { globals := { locals := [("X", ⟨5⟩)] } }
  procedures := [("P", ⟨14⟩), ("Q", ⟨15⟩)]

/-- What the body of `p` comes to with the input `inside`, its frame being there. -/
def inside : Ref × World :=
  ran (runBody (engine 5) 5 [.refs [⟨11⟩, ⟨11⟩, ⟨14⟩]] ⟨14⟩ ⟨11⟩
    ⟨"P", ["X"], [], none, 1, ⟨12⟩, []⟩ [⟨6⟩] { world with frames := world.frames.push ⟨14⟩ ⟨11⟩ })

/-- What an ordinary call of `q` comes to when that frame is gone. -/
def outside : Ref × World :=
  Activation.outcome { node := ⟨9⟩, call := ⟨9⟩, args := [] } [.refs [⟨11⟩, ⟨10⟩]] ⟨15⟩
    { inside.2 with frames := inside.2.frames.pop }

/-- The tail call of `q` has the value `outside`, and a call of `q` inside of `p` has `inside`. -/
theorem procedure_eq_outside :
    Activation.BodyComesTo { node := ⟨11⟩, call := ⟨11⟩, args := [⟨6⟩] } [] world inside.1 inside.2 ∧
    inside.2.heap.get inside.1 = .continuation ⟨10⟩ ⟨9⟩ [] ∧
    (ran ((engine 6).procedure [] ⟨9⟩ [] inside.2)).1 = ⟨6⟩ ∧
    ∃ least, ∀ n ≥ least, (engine n).procedure [] ⟨11⟩ [⟨6⟩] world = .ok (⟨5⟩, outside.2) := by
  have hbody : Activation.BodyComesTo { node := ⟨11⟩, call := ⟨11⟩, args := [⟨6⟩] } [] world
      inside.1 inside.2 :=
    ⟨5, ⟨14⟩, _, by decide +kernel, by decide +kernel, rfl, by decide +kernel, by decide +kernel,
      eq_ok_ran (by decide +kernel)⟩
  have htail : inside.2.heap.get inside.1 = .continuation ⟨10⟩ ⟨9⟩ [] :=
    eq_of_isTailCall (by decide +kernel)
  have hcomes : Activation.ComesTo { node := ⟨9⟩, call := ⟨9⟩, args := [] } [.refs [⟨11⟩, ⟨10⟩]]
      { inside.2 with frames := inside.2.frames.pop } outside.1 outside.2 :=
    Activation.comesTo_outcome (by decide +kernel)
  have hvalue : outside.2.heap.get outside.1 = .ret ⟨8⟩ (some ⟨5⟩) :=
    eq_of_isReturn (by decide +kernel)
  have hdemand : Demand.ofSource inside.2.heap ⟨10⟩ = .output := by decide +kernel
  obtain ⟨least, hruns⟩ := procedure_of_tailCall hbody htail hcomes (by simp [hvalue])
  refine ⟨hbody, htail, by decide +kernel, least, fun n hn => ?_⟩
  rw [(hruns n hn).2, Activation.conclude, Run.heap_bind, hvalue]
  simp only [Activation.finish, Activation.tailCall, hdemand]
  rfl

end Shadow

/-! ### A procedure that should have had a value -/

namespace Relay

/-- The call of the procedure with the given name, as the node with the given number. -/
def calling (index name : Nat) : Node :=
  .call ⟨⟨index⟩, index, ⟨name⟩, .execProcedure, .datumOrNothing⟩ []

/-- The statement `stop p2`. -/
def stopping : Node := .call ⟨⟨8⟩, 8, ⟨4⟩, .stop, .nothing⟩ [calling 7 3]

/-- The statement `output p1`. -/
def outputting : Node := .call ⟨⟨10⟩, 10, ⟨5⟩, .output, .nothing⟩ [calling 9 2]

/-- Three procedures: `p0` does `output p1`, `p1` does `stop p2`, and `p2` does nothing. -/
def heap : Heap where
  objects := #[.nothing, .word (.text "p0"), .word (.text "p1"), .word (.text "p2"),
    .word (.text "stop"), .word (.text "output"),
    .node ⟨⟨6⟩, 6, ⟨1⟩, .execProcedure, .datumOrNothing⟩ [],
    .node ⟨⟨7⟩, 7, ⟨3⟩, .execProcedure, .datumOrNothing⟩ [],
    .node ⟨⟨8⟩, 8, ⟨4⟩, .stop, .nothing⟩ [calling 7 3],
    .node ⟨⟨9⟩, 9, ⟨2⟩, .execProcedure, .datumOrNothing⟩ [],
    .node ⟨⟨10⟩, 10, ⟨5⟩, .output, .nothing⟩ [calling 9 2],
    .list ⟨11, none, 1, some [[outputting]]⟩, .list ⟨12, none, 1, some [[stopping]]⟩,
    .list ⟨13, none, 1, some []⟩,
    procedureObject "P0" [] 11, procedureObject "P1" [] 12, procedureObject "P2" [] 13]

/-- The three procedures are defined. -/
def world : World where
  heap := heap
  procedures := [("P0", ⟨14⟩), ("P1", ⟨15⟩), ("P2", ⟨16⟩)]

/-- The call of `p0`. -/
def first : Activation := { node := ⟨6⟩, call := ⟨6⟩, args := [] }

/-- What the activation of `p0` comes to. -/
def afterFirst : Ref × World := first.outcome [] ⟨14⟩ world

/-- The tail call of `p1`. -/
def second : Activation := first.tailCall afterFirst.2.heap ⟨10⟩ ⟨9⟩ []

/-- What the activation of `p1` comes to. -/
def afterSecond : Ref × World := second.outcome [] ⟨15⟩ afterFirst.2

/-- The tail call of `p2`. -/
def third : Activation := second.tailCall afterSecond.2.heap ⟨8⟩ ⟨7⟩ []

/-- What the activation of `p2` comes to. -/
def afterThird : Ref × World := third.outcome [] ⟨16⟩ afterSecond.2

/-- The procedures of `p0` and `p1` end with tail calls and that of `p2` by itself, and ordinary calls
would have another result. -/
theorem relays :
    first.runs [] ⟨14⟩ world = true ∧ second.runs [] ⟨15⟩ afterFirst.2 = true ∧
    third.runs [] ⟨16⟩ afterSecond.2 = true ∧
    isTailCall (afterFirst.2.heap.get afterFirst.1) ⟨10⟩ ⟨9⟩ = true ∧
    isTailCall (afterSecond.2.heap.get afterSecond.1) ⟨8⟩ ⟨7⟩ = true ∧
    afterThird.2.heap.isFlow afterThird.1 = false ∧ afterThird.2.heap.isData afterThird.1 = false ∧
    second.demand = .output ∧ third.demand = .stop ∧
    (ran (third.finish none afterThird.2)).1 ≠
      (ran (Activation.nested first [second, third] none afterThird.2)).1 := by
  decide +kernel

theorem chain_third : Activation.Chain [] first world [second, third] third afterSecond.2 := by
  obtain ⟨hfirst, hsecond, -, htail, htail', -⟩ := relays
  have hpasses : Activation.PassesTo [] first world second afterFirst.2 :=
    ⟨_, _, _, _, Activation.comesTo_outcome hfirst, eq_of_isTailCall htail, rfl⟩
  have hpasses' : Activation.PassesTo [] second afterFirst.2 third afterSecond.2 :=
    ⟨_, _, _, _, Activation.comesTo_outcome hsecond, eq_of_isTailCall htail', rfl⟩
  exact .head hpasses (.head hpasses' (.refl _ _))

theorem endsWith_third : third.EndsWith [] afterSecond.2 none afterThird.2 := by
  obtain ⟨-, -, hthird, -, -, hflow, hdata, -⟩ := relays
  exact ⟨_, Activation.comesTo_outcome hthird, .inr ⟨hflow, hdata, rfl⟩⟩

/-- The `OUTPUT` of `p0` gets no value, but the `STOP` of `p1` wants none, and that decides. -/
theorem procedure_first : Activation.Chain [] first world [second, third] third afterSecond.2 ∧
    third.EndsWith [] afterSecond.2 none afterThird.2 ∧ second.demand = .output ∧
    third.demand = .stop ∧
    ∃ least, ∀ n ≥ least, (engine n).procedure [] ⟨6⟩ [] world = .ok (⟨6⟩, afterThird.2) := by
  obtain ⟨-, -, -, -, -, -, -, houtput, hstop, -⟩ := relays
  obtain ⟨least, hruns⟩ := procedure_of_chain chain_third endsWith_third
  exact ⟨chain_third, endsWith_third, houtput, hstop, least, fun n hn =>
    (hruns n hn).2.2.1 (by rw [hstop]; rfl)⟩

/-- Chains do not always come to what ordinary calls would come to. -/
theorem not_forall_nested :
    ¬ ∀ (pins : Pins) (node : Ref) (args : List Ref) (later : List Activation)
      (last : Activation) (w w' w'' : World) (value : Option Ref),
      Activation.Chain pins { node, call := node, args } w later last w' →
      last.EndsWith pins w' value w'' →
      ∃ least, ∀ n ≥ least, (engine n).procedure pins node args w =
        Activation.nested { node, call := node, args } later value w'' := by
  intro hnested
  obtain ⟨least, hruns⟩ := hnested _ _ _ _ _ _ _ _ _ chain_third endsWith_third
  obtain ⟨least', hruns'⟩ := chain_third.exists_runCalls endsWith_third
  let n := max least least' + 1
  have hengine : (engine n).procedure [] ⟨6⟩ [] world = third.finish none afterThird.2 :=
    hruns' _ (by omega) _ (by omega)
  have hsame : third.finish none afterThird.2 =
      Activation.nested first [second, third] none afterThird.2 :=
    hengine.symm.trans (hruns n (by omega))
  obtain ⟨-, -, -, -, -, -, -, -, -, hresults⟩ := relays
  exact hresults (by rw [hsame])

end Relay

end LogoEngine
