import LogoEngine.Proofs.Eval.TidyRuns
import LogoEngine.Proofs.Session.Freshness

/-!
# Only data are stored and passed on

Tokens, errors, nodes and "no value" are values like any other to compiled code. All the same a
session that is given nothing but data never has any of them in a variable, in a list or an array
that a variable leads to, or among the inputs of a call: not between its steps, and at no moment of
a run that a step begins.

Main statement: `data_only`.
-/

namespace LogoEngine

/-! ### What variables hold -/

/-- One thing is in another: the first element of a list, the list of the others, or an item of an
array. -/
inductive Heap.Contains (h : Heap) : Ref → Ref → Prop
  | first {r head tail : Ref} (hpair : h.pair? r = some (head, tail)) : Contains h r head
  | rest {r head tail : Ref} (hpair : h.pair? r = some (head, tail)) : Contains h r tail
  | item {r s : Ref} {origin : Int} {items : Array Ref} (hget : h.get r = .array origin items)
      (hs : s ∈ items) : Contains h r s

/-- Words, lists and arrays, at every depth. -/
def Heap.DataThroughout (h : Heap) (r : Ref) : Prop :=
  ∀ s, Relation.ReflTransGen h.Contains r s → h.isData s = true

/-- Every variable holds data, at every depth, or nothing. -/
def World.VariablesHoldData (w : World) : Prop :=
  ∀ frame ∈ w.frames.globals :: w.frames.calls, ∀ key slot, frame.locals.get? key = some slot →
    w.heap.DataThroughout slot ∨ w.heap.get slot = .nothing

/-- Nothing but data is stored: not in variables, and not in lists and arrays. -/
structure World.HoldsData (w : World) : Prop where
  inVariables : w.VariablesHoldData
  inStructures : ∀ r s, w.heap.Contains r s → w.heap.isData s = true

/-- Whatever is in something is data. -/
theorem Heap.Tidy.contained {h : Heap} (ht : h.Tidy) {r s : Ref} (hs : h.Contains r s) :
    h.isData s = true := by
  cases hs with
  | first hpair => exact (ht.pair hpair).1
  | rest hpair => exact (ht.pair hpair).2
  | item hget hs => exact ht.array hget hs

theorem Heap.Tidy.dataThroughout {h : Heap} (ht : h.Tidy) {r : Ref} (hr : h.isData r = true) :
    h.DataThroughout r := by
  intro s hs
  cases hs with
  | refl => exact hr
  | tail _ hlast => exact ht.contained hlast

theorem World.Tidy.variablesHoldData {w : World} (hw : w.Tidy) : w.VariablesHoldData := by
  intro frame hframe key slot hslot
  have hlocals : ∀ f ∈ w.frames.globals :: w.frames.calls, f.Tidy w.heap :=
    List.forall_mem_cons.mpr ⟨hw.frames.globals, hw.frames.calls⟩
  rcases (hlocals frame hframe).locals key slot hslot with hdata | rfl
  · exact .inl (hw.heap.dataThroughout hdata)
  · exact .inr hw.heap.nothing

/-! ### Steps -/

/-- A step is given nothing but data, nodes with literals that are data, and procedures with bodies
and defaults that are. Calling a helper by itself is no such step. -/
def Step.GivesData (w : World) : Step → Prop
  | .execute value | .runList value | .assign _ value | .reply (some value) =>
    value.Makes w.heap w.host.kept .datum
  | .runNode node | .compileNode node => node.Makes w.heap w.host.kept .node
  | .runProcedure call args =>
    call.Makes w.heap w.host.kept .node ∧ ∀ arg ∈ args, arg.Makes w.heap w.host.kept .datum
  | .define value | .invalidate value => ∃ role, value.Makes w.heap w.host.kept role
  | .learn _ (some groups) =>
    ∀ group ∈ groups, ∀ node ∈ group, node.Makes w.heap w.host.kept .node
  | .attach list parse => (∃ role, list.Makes w.heap w.host.kept role) ∧
    ∀ group ∈ parse, ∀ node ∈ group, node.Makes w.heap w.host.kept .node
  -- a parse may refer to what is kept, and must still be of nodes with literals that are data
  | .keep name value => (∃ role, value.Makes w.heap w.host.kept role) ∧
    { w.host with kept := w.host.kept.insert name (w.built value).1 }.Tidy (w.built value).2
  | .forget name => { w.host with kept := w.host.kept.erase name }.Tidy w.heap
  | .callHelper _ _ => False
  | .procedure _ | .labels _ _ | .read _ | .reply none | .learn _ none | .seed _ | .compile _ |
    .isCached _ | .enter _ _ | .invalidateProcedure _ => True

variable {w w' : World}

theorem Role.Fits.named {h : Heap} (ht : h.Tidy) {r : Ref} (hr : Role.node.Fits h r) :
    h.Named r := by
  obtain ⟨head, inputs, hget⟩ := hr
  exact ht.named hget

theorem Run.bind_pure_eq_ok {α β : Type} {m : Run α} {f : α → β} {b : β}
    (h : (m >>= fun a => pure (f a)) w = .ok (b, w')) : ∃ a, m w = .ok (a, w') := by
  obtain ⟨a, w₁, hm, hpure⟩ := Run.bind_eq_ok h
  cases hpure
  exact ⟨a, hm⟩

theorem World.Tidy.dropCode (hw : w.Tidy) (r : Ref) : (w.dropCode r).Tidy := by
  unfold World.dropCode
  split
  · exact ⟨hw.heap, hw.frames, fun e he => hw.code e (List.mem_of_mem_filter he), hw.host⟩
  · exact hw

theorem World.Tidy.define (hw : w.Tidy) (name : String) (r : Ref) : (w.define name r).Tidy := by
  obtain ⟨cache, hcache, heq⟩ := w.define_cases name r
  have hsame : w.heap.Extends { w.heap with clock := w.heap.clock + 1 } :=
    ⟨le_rfl, fun _ _ => .refl _⟩
  have hheap : Heap.Tidy { w.heap with clock := w.heap.clock + 1 } :=
    hw.heap.of_extends hsame fun _ => .inl rfl
  rw [heq]
  refine ⟨hheap, hw.frames.mono hsame, fun e he => ?_, hw.host.mono hsame⟩
  rcases hcache with rfl | ⟨id, rfl⟩
  · exact (hw.code e he).mono hsame
  · exact (hw.code e (List.mem_of_mem_filter he)).mono hsame

/-- One more reply. -/
theorem Host.Tidy.reply {h : Heap} {host : Host} (hhost : host.Tidy h) {r : Option Ref}
    (hr : ∀ s, r = some s → h.isData s = true) :
    Host.Tidy h { host with replies := host.replies ++ [r] } := by
  refine ⟨fun s hs => ?_, hhost.parses⟩
  rcases List.mem_append.mp hs with hold | hnew
  · exact hhost.replies s hold
  · exact hr s (List.mem_singleton.mp hnew).symm

/-- One more parse. -/
theorem Host.Tidy.learnParse {h : Heap} {host : Host} (hhost : host.Tidy h) (source : String)
    {groups : List (List Sketch)}
    (hgroups : ∀ group ∈ groups, ∀ node ∈ group, node.Makes h host.kept .node) :
    Host.Tidy h { host with parses := host.parses.insert source groups } := by
  refine ⟨hhost.replies, fun other found hfound => ?_⟩
  by_cases hother : other = source
  · rw [hother, Table.get?_insert_self] at hfound
    cases hfound
    exact hgroups
  · rw [Table.get?_insert_of_ne _ _ hother] at hfound
    exact hhost.parses other found hfound

/-- One parse less. -/
theorem Host.Tidy.forgetParse {h : Heap} {host : Host} (hhost : host.Tidy h) (source : String) :
    Host.Tidy h { host with parses := host.parses.erase source } := by
  refine ⟨hhost.replies, fun other found hfound => ?_⟩
  by_cases hother : other = source
  · rw [hother, Table.get?_erase_self] at hfound
    cases hfound
  · rw [Table.get?_erase_of_ne _ hother] at hfound
    exact hhost.parses other found hfound

theorem tidy_defineProcedure {r : Ref} {u : Unit} (hw : w.Tidy)
    (h : defineProcedure r w = .ok (u, w')) : w'.Tidy := by
  cases hp : w.heap.procedure? r with
  | none =>
    cases (defineProcedure_apply_none hp).symm.trans h
    exact hw
  | some p =>
    cases (defineProcedure_apply hp).symm.trans h
    exact hw.define p.name r

namespace Session

variable {s s' : Session}

theorem tidy_build {sketch : Sketch} {role : Role} {r : Ref} (hw : w.Tidy)
    (hsketch : sketch.Makes w.heap w.host.kept role) (h : build sketch w = .ok (r, w')) :
    w'.Tidy ∧ role.Fits w'.heap r :=
  hw.making (hsketch.tidies w.heap (.refl _) hw.heap) h

theorem tidy_buildAll {sketches : List Sketch} {role : Role} {rs : List Ref} (hw : w.Tidy)
    (hsketches : ∀ sketch ∈ sketches, sketch.Makes w.heap w.host.kept role)
    (h : buildAll sketches w = .ok (rs, w')) : w'.Tidy ∧ ∀ r ∈ rs, role.Fits w'.heap r :=
  hw.making (Sketch.tidies_buildAll (fun sketch hsketch => (hsketches sketch hsketch).tidies)
    (.refl _) hw.heap) h

/-- A call and its inputs. -/
theorem tidy_buildCall {call : Sketch} {args : List Sketch} {r : Ref} {rs : List Ref}
    {w₁ : World} (hw : w.Tidy) (hcall : call.Makes w.heap w.host.kept .node)
    (hargs : ∀ arg ∈ args, arg.Makes w.heap w.host.kept .datum)
    (hbuild : build call w = .ok (r, w₁)) (hbuildAll : buildAll args w₁ = .ok (rs, w')) :
    w'.Tidy ∧ w'.heap.Named r ∧ ∀ r ∈ rs, w'.heap.isData r = true := by
  obtain ⟨hw₁, hr⟩ := tidy_build hw hcall hbuild
  have hh := Run.extends hbuild
  have hargs₁ : ∀ arg ∈ args, arg.Makes w₁.heap w₁.host.kept .datum := by
    rw [(Run.Changes.changes hbuild).kept_eq]
    exact fun arg harg => (hargs arg harg).mono hh
  obtain ⟨hw', hrs⟩ := tidy_buildAll hw₁ hargs₁ hbuildAll
  exact ⟨hw', (Run.extends hbuildAll).named (hr.named hw₁.heap), hrs⟩

theorem tidy_compileValue {r : Ref} {result : Except CompileError Entry} (hw : w.Tidy)
    (h : (compileValue r).run w = .ok (result, w')) : w'.Tidy := by
  unfold compileValue at h
  rw [Compile.run_heap_bind] at h
  split at h
  · exact (tidy_compileNode hw h).1
  · exact (tidy_compileSource hw h).1

theorem tidy_enterBlock {r : Ref} {block : Int} {a : Answer} (hw : w.Tidy)
    (h : enterBlock r block w = .ok (a, w')) : w'.Tidy := by
  obtain ⟨result, w₁, hcompile, hrest⟩ := Run.bind_eq_ok h
  obtain ⟨hw₁, hcode⟩ := tidy_compileSource hw hcompile
  cases result with
  | error failure =>
    cases hrest
    exact hw₁
  | ok entry =>
    obtain ⟨r, hrun⟩ := Run.bind_pure_eq_ok hrest
    exact tidy_runCode hw₁ (hcode entry rfl) hrun

theorem tidy_attachParse {list : Sketch} {role : Role} {parse : List (List Sketch)} {u : Unit}
    (hw : w.Tidy) (hlist : list.Makes w.heap w.host.kept role)
    (hparse : ∀ group ∈ parse, ∀ node ∈ group, node.Makes w.heap w.host.kept .node)
    (h : attachParse list parse w = .ok (u, w')) : w'.Tidy := by
  obtain ⟨r, w₁, hbuild, hrest⟩ := Run.bind_eq_ok h
  obtain ⟨hw₁, -⟩ := tidy_build hw hlist hbuild
  have hh := Run.extends hbuild
  have hkept := (Run.Changes.changes hbuild).kept_eq
  rw [Run.get_bind, hkept] at hrest
  suffices hmaking : Making.Tidies _ w₁.heap fun _ _ => True from (hw₁.making hmaking hrest).1
  refine .bind (Sketch.tidies_buildGroups (fun group hgroup node hnode =>
    (hparse group hgroup node hnode).tidies) hh hw₁.heap) fun groups h₁ _ ht₁ hgroups => ?_
  refine ⟨ht₁.attach r fun group hgroup node hnode => ?_, h₁.extends_attach _ _, trivial⟩
  obtain ⟨refs, hrefs, rfl⟩ := List.mem_map.mp hgroup
  exact Making.Tidies.inputs_tidy ht₁ (.refl _) (hgroups refs hrefs) node hnode

/-- A step that is given data leaves a tidy evaluator tidy. -/
theorem tidy_takeStep {step : Step} {a : Answer} (h : takeStep step s = .ok (a, s'))
    (hw : s.world.Tidy) (hstep : step.GivesData s.world) : s'.world.Tidy := by
  -- what a step makes first is data, and what it then runs or stores keeps the evaluator tidy
  cases step with
  | execute list =>
    obtain ⟨r, w₁, hbuild, hrest⟩ := Run.bind_eq_ok (run_eq_ok h)
    obtain ⟨hw₁, hr⟩ := tidy_build hw hstep hbuild
    obtain ⟨result, hrun⟩ := Run.bind_pure_eq_ok hrest
    exact tidy_execute hw₁ hr hrun
  | runList list =>
    obtain ⟨r, w₁, hbuild, hrest⟩ := Run.bind_eq_ok (run_eq_ok h)
    obtain ⟨hw₁, hr⟩ := tidy_build hw hstep hbuild
    obtain ⟨result, hrun⟩ := Run.bind_pure_eq_ok hrest
    exact (tidy_engine fuel).list hw₁ hr hrun
  | runNode node =>
    obtain ⟨r, w₁, hbuild, hrest⟩ := Run.bind_eq_ok (run_eq_ok h)
    obtain ⟨hw₁, -⟩ := tidy_build hw hstep hbuild
    obtain ⟨result, hrun⟩ := Run.bind_pure_eq_ok hrest
    exact tidy_runNode hw₁ hrun
  | runProcedure call args =>
    obtain ⟨r, w₁, hbuild, hrest⟩ := Run.bind_eq_ok (run_eq_ok h)
    obtain ⟨rs, w₂, hbuildAll, hrest⟩ := Run.bind_eq_ok hrest
    obtain ⟨result, hrun⟩ := Run.bind_pure_eq_ok hrest
    obtain ⟨hw₂, hr, hrs⟩ := tidy_buildCall hw hstep.1 hstep.2 hbuild hbuildAll
    exact (tidy_engine fuel).procedure hw₂ hr hrs hrun
  | define procedure =>
    obtain ⟨role, hsketch⟩ := hstep
    obtain ⟨r, w₁, hbuild, hrest⟩ := Run.bind_eq_ok (run_eq_ok h)
    obtain ⟨hw₁, -⟩ := tidy_build hw hsketch hbuild
    obtain ⟨u, hrun⟩ := Run.bind_pure_eq_ok hrest
    exact tidy_defineProcedure hw₁ hrun
  | procedure | labels | read | isCached =>
    cases h
    exact hw
  | assign name value =>
    obtain ⟨r, w₁, hbuild, hrest⟩ := Run.bind_eq_ok (run_eq_ok h)
    obtain ⟨hw₁, hr⟩ := tidy_build hw hstep hbuild
    obtain ⟨u, hset⟩ := Run.bind_pure_eq_ok hrest
    generalize s'.world = w' at hset
    cases hset
    exact hw₁.withFrames (hw₁.frames.set _ (.inl hr))
  | reply value =>
    cases value with
    | none =>
      cases h
      exact ⟨hw.heap, hw.frames, hw.code, hw.host.reply (by simp)⟩
    | some value =>
      obtain ⟨hw₁, hr⟩ := tidy_build hw hstep (build_apply value s.world)
      cases h
      exact ⟨hw₁.heap, hw₁.frames, hw₁.code, hw₁.host.reply fun _ heq => Option.some.inj heq ▸ hr⟩
  | learn source parse =>
    cases parse with
    | none =>
      cases h
      exact ⟨hw.heap, hw.frames, hw.code, hw.host.forgetParse source⟩
    | some groups =>
      cases h
      exact ⟨hw.heap, hw.frames, hw.code, hw.host.learnParse source hstep⟩
  | seed seed =>
    cases h
    exact ⟨hw.heap, hw.frames, hw.code, hw.host⟩
  | keep name value =>
    obtain ⟨⟨role, hsketch⟩, hhost⟩ := hstep
    have hw₁ := (tidy_build hw hsketch (build_apply value s.world)).1
    cases h
    exact ⟨hw₁.heap, hw₁.frames, hw₁.code, hhost⟩
  | forget name =>
    cases h
    exact ⟨hw.heap, hw.frames, hw.code, hstep⟩
  | attach list parse =>
    obtain ⟨⟨role, hlist⟩, hparse⟩ := hstep
    obtain ⟨u, hrun⟩ := Run.bind_pure_eq_ok (run_eq_ok h)
    exact tidy_attachParse hw hlist hparse hrun
  | compile name =>
    obtain ⟨⟨result, s₁⟩, hrun, hrest⟩ := bind_eq_ok_iff.mp h
    rw [answerEntry_world hrest]
    have hcompile := run_eq_ok hrun
    rw [Run.get_bind] at hcompile
    exact tidy_compileValue hw hcompile
  | compileNode node =>
    obtain ⟨⟨result, s₁⟩, hrun, hrest⟩ := bind_eq_ok_iff.mp h
    rw [answerEntry_world hrest]
    obtain ⟨r, w₁, hbuild, hcompile⟩ := Run.bind_eq_ok (run_eq_ok hrun)
    exact (tidy_compileNode (tidy_build hw hstep hbuild).1 hcompile).1
  | enter name block =>
    have hrun := run_eq_ok h
    rw [Run.get_bind] at hrun
    exact tidy_enterBlock hw hrun
  | invalidate source =>
    obtain ⟨role, hsketch⟩ := hstep
    have hw₁ := (tidy_build hw hsketch (build_apply source s.world)).1
    cases h
    exact hw₁.dropCode _
  | invalidateProcedure name =>
    have hrun := run_eq_ok h
    rw [Run.get_bind] at hrun
    cases hprocedure : s.world.procedures.get? (Text.upper name) with
    | none =>
      rw [hprocedure] at hrun
      generalize s'.world = w' at hrun
      cases hrun
      exact hw
    | some r =>
      rw [hprocedure] at hrun
      generalize s'.world = w' at hrun
      cases hrun
      exact hw.dropCode r
  | callHelper => exact hstep.elim

/-! ### Whole sessions -/

/-- The evaluator with a new page of the journal, as a step finds it. -/
def page (s : Session) : World :=
  { s.world with host := { s.world.host with journal := {} } }

/-- One session comes after another by a step that is given data. -/
def NextOnData (s s' : Session) : Prop :=
  ∃ step answer, s.take step = .ok (answer, s') ∧ step.GivesData s.page

/-- What a session can come to that is given nothing but data, starting with a host that has no
replies and parses yet. -/
def ReachableOnData (s : Session) : Prop :=
  ∃ host settings random, host.replies = [] ∧ host.parses = [] ∧
    Relation.ReflTransGen NextOnData { world := { host, settings, random } } s

theorem tidy_start {host : Host} (settings : Settings) (random : Random)
    (hreplies : host.replies = []) (hparses : host.parses = []) :
    ({ host, settings, random } : World).Tidy := by
  have hnone (r : Ref) : ({} : Heap).get r = .nothing := by
    unfold Heap.get
    by_cases hr : r.index = 0
    · simp [Array.getD, hr]
    · simp [Array.getD, hr]
  have hglobals : Frame.Tidy ({} : Heap) ({} : Frames).globals :=
    ⟨fun _ _ hr => (nomatch hr), fun _ hr => (nomatch hr), fun _ hr => (nomatch hr)⟩
  exact
    { heap := ⟨Nat.one_pos, hnone _, fun r => by rw [hnone]; trivial⟩
      frames := ⟨fun _ hf => (nomatch hf), hglobals⟩
      code := fun _ he => nomatch he
      host := ⟨fun r hr => by simp [hreplies] at hr, fun source groups hgroups => by
        rw [hparses] at hgroups
        cases hgroups⟩ }

theorem ReachableOnData.tidy (hs : s.ReachableOnData) : s.page.Tidy := by
  have hpage {s : Session} (hw : s.world.Tidy) : s.page.Tidy :=
    ⟨hw.heap, hw.frames, hw.code, hw.host.replies, hw.host.parses⟩
  obtain ⟨host, settings, random, hreplies, hparses, hnext⟩ := hs
  induction hnext with
  | refl => exact hpage (tidy_start settings random hreplies hparses)
  | @tail s₁ s₂ _ hlast ih =>
    obtain ⟨step, answer, htake, hgives⟩ := hlast
    exact hpage (tidy_takeStep (s := { s₁ with world := s₁.page }) htake ih hgives)

/-- What a step runs, before anything of it is done. -/
inductive Begins (w : World) : Step → Moment → Prop
  | execute {list : Sketch} {r : Ref} {w₁ : World} (hbuild : build list w = .ok (r, w₁)) :
      Begins w (.execute list) (.list [.refs [r]] r w₁)
  | runList {list : Sketch} {r : Ref} {w₁ : World} (hbuild : build list w = .ok (r, w₁)) :
      Begins w (.runList list) (.list [.refs [r]] r w₁)
  | runNode {node : Sketch} {r : Ref} {entry : Entry} {w₁ w₂ : World}
      (hbuild : build node w = .ok (r, w₁))
      (hcompile : (LogoEngine.compileNode [.refs [r], .refs [r]] r).run w₁ = .ok (.ok entry, w₂)) :
      Begins w (.runNode node) (.code [.constants entry.code.constants, .refs [r], .refs [r]]
        entry.code 0 (Machine.start entry.code w₂))
  | runProcedure {call : Sketch} {args : List Sketch} {r : Ref} {rs : List Ref} {w₁ w₂ : World}
      (hbuild : build call w = .ok (r, w₁)) (hbuildAll : buildAll args w₁ = .ok (rs, w₂)) :
      Begins w (.runProcedure call args)
        (.call [.refs (r :: rs)] { node := r, call := r, args := rs } w₂)
  | enter {name : String} {block : Int} {entry : Entry} {w₁ : World}
      (hcompile : (compileList [.refs [kept w name]] (kept w name)).run w = .ok (.ok entry, w₁)) :
      Begins w (.enter name block) (.code [.constants entry.code.constants, .refs [kept w name]]
        entry.code block (Machine.start entry.code w₁))

/-- The call that a step makes. -/
def callMoment (w : World) (call : Sketch) (args : List Sketch) : Moment :=
  let node := w.built call
  let inputs := Sketch.buildAll w.host.kept args node.2
  .call [.refs (node.1 :: inputs.1)] { node := node.1, call := node.1, args := inputs.1 }
    { w with heap := inputs.2 }

theorem begins_callMoment (w : World) (call : Sketch) (args : List Sketch) :
    Begins w (.runProcedure call args) (callMoment w call args) :=
  .runProcedure (build_apply _ _) rfl

theorem Begins.tidy {step : Step} {m : Moment} (h : Begins w step m) (hw : w.Tidy)
    (hstep : step.GivesData w) : m.Tidy := by
  cases h with
  | execute hbuild | runList hbuild => exact tidy_build hw hstep hbuild
  | runNode hbuild hcompile =>
    obtain ⟨hw₂, hcode⟩ := tidy_compileNode (tidy_build hw hstep hbuild).1 hcompile
    exact .start hw₂ (hcode _ rfl)
  | runProcedure hbuild hbuildAll => exact tidy_buildCall hw hstep.1 hstep.2 hbuild hbuildAll
  | enter hcompile =>
    obtain ⟨hw₁, hcode⟩ := tidy_compileSource hw hcompile
    exact .start hw₁ (hcode _ rfl)

/-- **Only data are stored and passed on.** In every state of a session that is given nothing but
data, and at every moment of the runs that its steps begin, variables hold words, lists and arrays
or nothing, at every depth; no list and no array has anything else in it; and user procedures are
called with words, lists and arrays. -/
theorem data_only {s : Session} (hs : s.ReachableOnData) :
    s.world.HoldsData ∧
    ∀ step m₀ m, step.GivesData s.page → Begins s.page step m₀ →
      Relation.ReflTransGen Moment.Next m₀ m →
      m.world.HoldsData ∧
        ∀ pins a w, m = .call pins a w → ∀ r ∈ a.args, w.heap.DataThroughout r := by
  refine ⟨⟨hs.tidy.variablesHoldData, fun r s => hs.tidy.heap.contained⟩,
    fun step m₀ m hgives hbegins hnext => ?_⟩
  have hm := Moment.tidy_of_next hnext (hbegins.tidy hs.tidy hgives)
  refine ⟨⟨hm.world.variablesHoldData, fun r s => hm.world.heap.contained⟩, ?_⟩
  rintro pins a w rfl r hr
  exact hm.1.heap.dataThroughout (hm.2.2 r hr)

namespace Printer

/-- A procedure of one input, which prints it. -/
def procedure : Sketch :=
  .procedure "p" ["x"] [] none none (.code [[.call "print" [.valueOf "x"]]]) []

/-- A session in which the procedure is defined. -/
def session : Session :=
  ({} : Session).after (.define procedure)

/-- The step that calls the procedure with the list `[a]`. -/
def step : Step :=
  .runProcedure (.procedureCall "p" []) [.list [.text "a"]]

/-- The moment at which the call is made. -/
def moment : Moment :=
  callMoment session.page (.procedureCall "p" []) [.list [.text "a"]]

theorem reachableOnData : session.ReachableOnData := by
  obtain ⟨answer, hdefine⟩ := @exists_take_after {} (.define procedure) (by decide +kernel)
  have hprocedure :
      procedure.Makes ({} : Session).page.heap ({} : Session).page.host.kept .procedure :=
    .procedure "p" ["x"] [] none none
      (.code (by simpa using .call "print" (by simpa using .valueOf "x"))) (by simp)
  exact ⟨{}, {}, ⟨0⟩, rfl, rfl, .single ⟨_, _, hdefine, .procedure, hprocedure⟩⟩

theorem begins : Begins session.page step moment :=
  begins_callMoment session.page _ _

/-- The frame of the call is there next. -/
theorem opens : ∃ m, Moment.Opens moment m := by
  let call := session.page.built (.procedureCall "p" [])
  let inputs := Sketch.buildAll session.page.host.kept [.list [.text "a"]] call.2
  have hright : (inputs.2.procedure? ⟨8⟩).any (fun p =>
      decide (p.minInputs ≤ inputs.1.length) && !p.maxInputs.any (· < inputs.1.length)) = true := by
    decide +kernel
  obtain ⟨p, hp, hinputs⟩ := (Option.any_eq_true _ _).mp hright
  rw [Bool.and_eq_true, decide_eq_true_eq, Bool.not_eq_true'] at hinputs
  exact ⟨_, @Moment.Opens.intro _ _ ⟨8⟩ _ _ (by decide +kernel) (by decide +kernel) hp hinputs.1
    hinputs.2⟩

/-- The list is passed on as it is. -/
theorem data_only_call : session.world.HoldsData ∧
    (∃ pins a w, moment = .call pins a w ∧ a.args.length = 1 ∧
      ∀ r ∈ a.args, w.heap.DataThroughout r) ∧
    ∃ m, Moment.Opens moment m ∧ m.world.HoldsData := by
  obtain ⟨hholds, hrun⟩ := data_only reachableOnData
  have hgives : step.GivesData session.page :=
    ⟨.procedureCall "p" (by simp), by simpa using .list (by simpa using .text "a")⟩
  obtain ⟨m, hopens⟩ := opens
  have hcall := hrun step moment moment hgives begins .refl
  have hnext := hrun step moment m hgives begins (.single (.inr hopens))
  exact ⟨hholds, ⟨_, _, _, rfl, by decide +kernel, hcall.2 _ _ _ rfl⟩, m, hopens, hnext.1⟩

end Printer

end Session

end LogoEngine
