import LogoEngine.Session
import LogoEngine.Proofs.Eval.Freshness
import LogoEngine.Proofs.Eval.Running

/-!
# Sessions never run stale code

A step of a session **renews** a list if it defines a procedure, gives the list a new parse, or
drops its code. Between two such steps the list is compiled once; across one it is compiled anew.

A list may lose its code earlier, in a sweep that finds nothing that leads to it. That does not
happen to a list that the host keeps, to the body of a defined procedure, or while other lists are
compiled to a list that a variable has (`Session.Spares`).

Main statements: `Session.compileList_upToDate`, `Session.compileSource_again` and
`Session.compileSource_body_again`.
-/

namespace LogoEngine

/-! ### Dropping code -/

namespace Heap

/-- The source whose code is dropped for a value: the body, if the value is a procedure. -/
def codeSource (h : Heap) (r : Ref) : Ref :=
  match h.get r with
  | .procedure p => p.body
  | _ => r

/-- The identity under which code is dropped for a value. -/
def codeId? (h : Heap) (r : Ref) : Option Nat :=
  match h.get r with
  | .procedure p => (h.cell? p.body).map Cell.id
  | _ => h.sourceId? r

variable {h : Heap} {r : Ref}

theorem codeId?_of_cell? {cell : Cell} (hcell : h.cell? (h.codeSource r) = some cell) :
    h.codeId? r = some cell.id := by
  unfold codeSource at hcell
  unfold codeId?
  split at hcell
  · rw [hcell]
    rfl
  · exact sourceId?_of_key? (key?_of_cell? hcell)

theorem sourceId?_of_codeId? {id : Nat} (hid : h.codeId? r = some id) :
    h.sourceId? (h.codeSource r) = some id := by
  unfold codeId? at hid
  unfold codeSource
  split at hid
  · obtain ⟨cell, hcell, rfl⟩ := Option.map_eq_some_iff.mp hid
    exact sourceId?_of_key? (key?_of_cell? hcell)
  · exact hid

end Heap

/-- The evaluator after the code for a value was dropped. -/
def World.dropCode (w : World) (r : Ref) : World :=
  match w.heap.codeId? r with
  | some id => { w with cache := w.cache.erase id }
  | none => w

theorem invalidate_apply (w : World) (r : Ref) : invalidate r w = .ok ((), w.dropCode r) :=
  rfl

theorem World.moves_dropCode (w : World) (r : Ref) : w.Moves (w.dropCode r) := by
  unfold World.dropCode
  split
  · exact .single (.drop _)
  · exact .refl

@[simp]
theorem World.heap_dropCode (w : World) (r : Ref) : (w.dropCode r).heap = w.heap := by
  unfold World.dropCode
  split <;> rfl

@[simp]
theorem World.linked_dropCode (w : World) (r : Ref) : (w.dropCode r).linked = w.linked := by
  unfold World.dropCode
  split <;> rfl

@[simp]
theorem World.procedures_dropCode (w : World) (r : Ref) :
    (w.dropCode r).procedures = w.procedures := by
  unfold World.dropCode
  split <;> rfl

/-- Dropping the code of another list spares that of a list. -/
theorem World.spared_dropCode {w : World} (hw : w.Fresh) {list r : Ref}
    (hne : w.heap.codeSource r ≠ list) : w.Spared list (w.dropCode r) := by
  unfold World.dropCode
  split
  · next id hid =>
    refine .single (.drop fun hlist => hne ?_)
    exact hw.sound.id_inj (Heap.sourceId?_of_codeId? hid) hlist
  · exact .refl

/-! ### Giving a list a new parse -/

/-- A new parse renews the list it is for, or does nothing if there is no list. -/
theorem Heap.attach_cases (h : Heap) (r : Ref) (parse : Parse) :
    h.cell? r = none ∧ h.attach r parse = h ∨
      ∃ cell, h.cell? r = some cell ∧ h.attach r parse = h.dated r cell (some parse) := by
  cases hr : h.cell? r with
  | none => exact .inl ⟨rfl, by rw [Heap.attach, hr]⟩
  | some cell => exact .inr ⟨cell, rfl, Heap.attach_eq hr parse⟩

/-! ### Renewing a list -/

namespace World.Renewed

variable {w : World} {list : Ref}

/-- A list that is not there yet has no code. -/
theorem of_absent (hw : w.Fresh) {h : Heap} (hh : w.heap.Extends h) {cell : Cell}
    (hcell : h.cell? list = some cell) (hnone : w.heap.cell? list = none) :
    w.Renewed list w.linked 0 := by
  refine ⟨le_rfl, .inl (Nat.zero_le _), fun e he hsource => ?_⟩
  have hid := (hw.stored e he).id_eq
  rw [hsource] at hid
  obtain ⟨cell₀, hcell₀⟩ := hh.exists_cell?_of hid hcell
  rw [hnone] at hcell₀
  cases hcell₀

theorem of_dropCode (hw : w.Fresh) {r : Ref} (hr : w.heap.codeSource r = list) {cell : Cell}
    (hcell : w.heap.cell? list = some cell) : (w.dropCode r).Renewed list w.linked 0 := by
  have hid := Heap.codeId?_of_cell? (hr ▸ hcell)
  have hdrop : w.dropCode r = { w with cache := w.cache.erase cell.id } := by
    rw [World.dropCode, hid]
  rw [hdrop]
  refine ⟨le_rfl, .inl (Nat.zero_le _), fun e he hsource => ?_⟩
  obtain ⟨hmem, hne⟩ := List.mem_filter.mp he
  have hstored := (hw.stored e hmem).id_eq
  rw [hsource, Heap.sourceId?_of_key? (Heap.key?_of_cell? hcell)] at hstored
  simp [Option.some.inj hstored] at hne

theorem of_attach (hw : w.Fresh) {cell : Cell} (hcell : w.heap.cell? list = some cell)
    (parse : Parse) : ({ w with heap := w.heap.attach list parse } : World).Renewed list w.linked
      (w.heap.clock + 1) := by
  rw [Heap.attach_eq hcell]
  refine ⟨le_rfl, .inr ⟨_, Heap.cell?_dated hcell _, le_rfl⟩, fun e he _ => .inr ?_⟩
  exact Nat.lt_succ_of_le (hw.stored e he).stamp_le

end World.Renewed

/-- The evaluator after a procedure was defined: all parses are older than the definition, and the
code of the body it had before is dropped. -/
def World.define (w : World) (name : String) (r : Ref) : World :=
  let w' := { w with procedures := w.procedures.insert name r }
  let w' := ((w.procedures.get? name).map w'.dropCode).getD w'
  { w' with
    lastDefinition := w'.heap.clock + 1, heap := { w'.heap with clock := w'.heap.clock + 1 } }

theorem defineProcedure_apply {w : World} {r : Ref} {p : Procedure}
    (hp : w.heap.procedure? r = some p) :
    defineProcedure r w = .ok ((), w.define p.name r) := by
  unfold defineProcedure
  rw [Run.heap_bind, hp]
  dsimp only
  rw [Run.get_bind]
  unfold World.define
  cases w.procedures.get? p.name <;> rfl

theorem defineProcedure_apply_none {w : World} {r : Ref} (hp : w.heap.procedure? r = none) :
    defineProcedure r w = .ok ((), w) := by
  unfold defineProcedure
  rw [Run.heap_bind, hp]
  rfl

/-- A definition is a change of the table of procedures, perhaps the loss of code, and a tick. -/
theorem World.define_cases (w : World) (name : String) (r : Ref) :
    ∃ cache, (cache = w.cache ∨ ∃ id, cache = w.cache.erase id) ∧
      w.define name r = { w with
        cache, procedures := w.procedures.insert name r, lastDefinition := w.heap.clock + 1,
        heap := { w.heap with clock := w.heap.clock + 1 } } := by
  unfold World.define
  cases w.procedures.get? name with
  | none => exact ⟨w.cache, .inl rfl, rfl⟩
  | some old =>
    dsimp only [Option.map_some, Option.getD_some]
    unfold World.dropCode
    split
    · next id _ => exact ⟨w.cache.erase id, .inr ⟨id, rfl⟩, rfl⟩
    · exact ⟨w.cache, .inl rfl, rfl⟩

theorem World.moves_define (w : World) (name : String) (r : Ref) : w.Moves (w.define name r) := by
  obtain ⟨cache, rfl | ⟨id, rfl⟩, heq⟩ := w.define_cases name r
  · rw [heq]
    exact .single (.define _)
  · rw [heq]
    exact .tail (.single (.drop id)) (.define _)

theorem World.Renewed.of_define {w : World} (hw : w.Fresh) (list : Ref) (name : String) (r : Ref) :
    (w.define name r).Renewed list (w.define name r).linked (w.heap.clock + 1) := by
  obtain ⟨cache, hcache, heq⟩ := w.define_cases name r
  rw [heq]
  refine ⟨le_rfl, .inl le_rfl, fun e he _ => .inr ?_⟩
  have hmem : e ∈ w.cache.entries := by
    rcases hcache with rfl | ⟨id, rfl⟩
    · exact he
    · exact (List.mem_filter.mp he).1
  exact Nat.lt_succ_of_le (hw.stored e hmem).stamp_le

/-! ### Steps of a session -/

/-- What a sketch describes, with the objects it is made of. -/
def World.built (w : World) (sketch : Sketch) : Ref × Heap :=
  sketch.build w.host.kept w.heap

/-- A step renews a list: it defines a procedure, gives the list a new parse, or drops its code. -/
def Step.Renews (w : World) (list : Ref) : Step → Prop
  | .define sketch => ((w.built sketch).2.procedure? (w.built sketch).1).isSome
  | .attach target _ => (w.built target).1 = list
  | .invalidate source => (w.built source).2.codeSource (w.built source).1 = list
  | .invalidateProcedure name =>
    (w.procedures.get? (Text.upper name)).map w.heap.codeSource = some list
  | _ => False

/-- A step that does nothing but compile. -/
def Step.compiles : Step → Bool
  | .compile _ | .compileNode _ => true
  | _ => false

/-- What a step does to an evaluator, by the lists it renews. -/
inductive World.Taken (w : World) (renews : Ref → Prop) : World → Prop
  | run {w' : World} (hchanges : w.Changes w') (hnone : ∀ list, ¬ renews list) : Taken w renews w'
  | host {w₁ : World} (hchanges : w.Changes w₁) (host : Host) (hnone : ∀ list, ¬ renews list) :
      Taken w renews { w₁ with host }
  | define {w₁ : World} (hchanges : w.Changes w₁) (name : String) (r : Ref)
      (hall : ∀ list, renews list) : Taken w renews (w₁.define name r)
  | attach {w₁ : World} (hchanges : w.Changes w₁) {r : Ref} (parse : Parse)
      (hiff : ∀ list, renews list ↔ r = list) :
      Taken w renews { w₁ with heap := w₁.heap.attach r parse }
  | drop {w₁ : World} (hchanges : w.Changes w₁) {r : Ref}
      (hiff : ∀ list, renews list ↔ w₁.heap.codeSource r = list) : Taken w renews (w₁.dropCode r)

namespace Session

variable {s s' : Session}

theorem run_eq_ok {α : Type} {f : Run α} {a : α} (h : Session.run f s = .ok (a, s')) :
    f s.world = .ok (a, s'.world) := by
  obtain ⟨⟨a', w⟩, hf, hrest⟩ := bind_eq_ok_iff.mp h
  cases hrest
  exact hf

section

variable {R : World → World → Prop} [hR : Permissive R]

instance (sketch : Sketch) : Run.Keeps R (build sketch) := by
  unfold build; infer_instance

instance (sketches : List Sketch) : Run.Keeps R (buildAll sketches) := by
  unfold buildAll; infer_instance

instance (argument : Argument) : Run.Keeps R (buildArgument argument) := by
  unfold buildArgument
  split <;> infer_instance

instance [∀ pins source procedure, Run.Keeps R (compileSource pins source procedure).run]
    [∀ pins node, Run.Keeps R (compileNode pins node).run] (r : Ref) :
    Run.Keeps R (compileValue r).run := by
  refine ⟨fun {w _ _} h => ?_⟩
  unfold compileValue at h
  rw [Compile.run_heap_bind] at h
  split at h <;> exact Run.Keeps.keeps h

theorem keeps_modifyHost {f : Host → Host} (hf : ∀ host, (f host).kept = host.kept) :
    Run.Keeps R (modifyHost f) :=
  .withHost hf

end

instance (r : Ref) (block : Int) : Run.Keeps World.Changes (enterBlock r block) := by
  unfold enterBlock
  refine .bind inferInstance fun compiled => ?_
  split <;> infer_instance

instance (helper : Helper) (args : List Argument) :
    Run.Keeps World.Changes (callHelperWith helper args) := by
  unfold callHelperWith; infer_instance

theorem build_apply (sketch : Sketch) (w : World) :
    build sketch w = .ok ((w.built sketch).1, { w with heap := (w.built sketch).2 }) :=
  rfl

theorem changes_built (w : World) (sketch : Sketch) :
    w.Changes { w with heap := (w.built sketch).2 } :=
  .heap (Making.Changes.changes (m := sketch.build w.host.kept) w.heap)

/-- A step that only runs something. -/
theorem taken_run {α : Type} {m : Run α} [Run.Changes m] {renews : Ref → Prop} {a : α}
    (h : Session.run m s = .ok (a, s')) (hnone : ∀ list, ¬ renews list) :
    s.world.Taken renews s'.world :=
  .run (Run.Changes.changes (run_eq_ok h)) hnone

theorem answerEntry_world {name : Option String} {result : Except CompileError Entry} {a : Answer}
    (h : answerEntry name result s = .ok (a, s')) : s'.world = s.world := by
  have hnumber : ∀ {n k : Nat} {s s' : Session}, number n s = .ok (k, s') →
      s'.world = s.world := by
    intro n k s s' h
    have hrun : number n s = .ok (match s.seen.findIdx? (· == n) with
      | some k => (k, s)
      | none => (s.seen.length, { s with seen := s.seen ++ [n] })) := rfl
    rw [hrun] at h
    split at h <;> cases h <;> rfl
  cases result with
  | error e =>
    cases h
    rfl
  | ok entry =>
    obtain ⟨s₁, hs₁, hrun⟩ : ∃ s₁ : Session, s₁.world = s.world ∧
        answerEntry name (.ok entry) s =
          (number entry.number s₁ >>= fun out => .ok (.entry out.1, out.2)) := by
      cases name with
      | none => exact ⟨s, rfl, rfl⟩
      | some name =>
        exact ⟨{ s with answered := s.answered.insert name entry.number }, rfl, rfl⟩
    rw [hrun] at h
    obtain ⟨⟨k, s₂⟩, hk, hrest⟩ := bind_eq_ok_iff.mp h
    cases hrest
    rw [hnumber hk, hs₁]

/-- A step that compiles something. -/
theorem keeps_compile {R : World → World → Prop} {m : Run (Except CompileError Entry)}
    [hm : Run.Keeps R m] {name : Option String} {a : Answer}
    (h : (Session.run m >>= answerEntry name) s = .ok (a, s')) : R s.world s'.world := by
  obtain ⟨⟨result, s₁⟩, hrun, hrest⟩ := bind_eq_ok_iff.mp h
  rw [answerEntry_world hrest]
  exact hm.keeps (run_eq_ok hrun)

theorem taken_takeStep {step : Step} {a : Answer} (h : takeStep step s = .ok (a, s')) :
    s.world.Taken (fun list => step.Renews s.world list) s'.world := by
  -- only defining, attaching and dropping renew a list; all other steps run or put something by
  cases step with
  | execute | runList | runNode | runProcedure | procedure | labels | read | assign | enter |
    callHelper => exact taken_run h fun _ hr => hr
  | compile | compileNode => exact .run (keeps_compile h) fun _ hr => hr
  | isCached =>
    cases h
    exact .run .refl fun _ hr => hr
  | seed seed => exact taken_run h fun _ hr => hr
  | reply value =>
    have (r : Option Ref) : Run.Keeps World.Changes (modifyHost fun host =>
        { host with replies := host.replies ++ [r] }) :=
      keeps_modifyHost fun _ => rfl
    cases value <;> exact taken_run h fun _ hr => hr
  | learn source parse =>
    have (groups : List (List Sketch)) : Run.Keeps World.Changes (modifyHost fun host =>
        { host with parses := host.parses.insert source groups }) :=
      keeps_modifyHost fun _ => rfl
    have : Run.Keeps World.Changes (modifyHost fun host =>
        { host with parses := host.parses.erase source }) :=
      keeps_modifyHost fun _ => rfl
    cases parse <;> exact taken_run h fun _ hr => hr
  | keep name value =>
    cases h
    exact .host (changes_built s.world value) _ fun _ hr => hr
  | forget name =>
    cases h
    exact .host .refl _ fun _ hr => hr
  | define sketch =>
    have hbuilt := changes_built s.world sketch
    have hrun : (defineProcedure (s.world.built sketch).1 >>= fun _ => pure Answer.done)
        { s.world with heap := (s.world.built sketch).2 } = .ok (a, s'.world) := run_eq_ok h
    obtain ⟨_, w, hdefine, hrest⟩ := Run.bind_eq_ok hrun
    generalize s'.world = w' at hrest
    cases hrest
    cases hp : (s.world.built sketch).2.procedure? (s.world.built sketch).1 with
    | none =>
      rw [defineProcedure_apply_none hp] at hdefine
      cases hdefine
      exact .run hbuilt fun _ hr => by simp [Step.Renews, hp] at hr
    | some p =>
      rw [defineProcedure_apply hp] at hdefine
      cases hdefine
      exact .define hbuilt p.name _ fun _ => by simp [Step.Renews, hp]
  | attach target parse =>
    cases h
    have hgroups := Making.Changes.changes
      (m := Sketch.buildGroups s.world.host.kept parse) (s.world.built target).2
    exact .attach ((changes_built s.world target).trans (World.Changes.heap hgroups)) _
      fun _ => Iff.rfl
  | invalidate source =>
    cases h
    exact .drop (changes_built s.world source) fun _ => Iff.rfl
  | invalidateProcedure name =>
    have hrun := run_eq_ok h
    have hget_bind : ∀ f : World → Run Answer, (get >>= f) s.world = f s.world s.world :=
      fun _ => rfl
    rw [hget_bind] at hrun
    generalize s'.world = w' at hrun
    cases hget : s.world.procedures.get? (Text.upper name) with
    | none =>
      rw [hget] at hrun
      cases hrun
      exact .run .refl fun _ hr => by simp [Step.Renews, hget] at hr
    | some r =>
      rw [hget] at hrun
      cases hrun
      exact .drop .refl fun _ => by simp [Step.Renews, hget]

/-- Starting a new page of the journal changes nothing that matters to the cache. -/
theorem taken_take {step : Step} {a : Answer} (h : s.take step = .ok (a, s')) :
    ∃ w, s.world.Change w ∧ w.linked = s.world.linked ∧
      w.Taken (fun list => step.Renews s.world list) s'.world :=
  ⟨_, .aside _ _ _ _ { s.world.host with journal := {} } rfl, rfl, taken_takeStep h⟩

/-- A step that only compiles leaves the frames alone. -/
theorem stillChanges_take {step : Step} {a : Answer} (h : s.take step = .ok (a, s'))
    (hcompiles : step.compiles = true) : s.world.StillChanges s'.world := by
  have hpage : s.world.StillChanges
      { s.world with host := { s.world.host with journal := {} } } :=
    .single ⟨.aside s.world.frames _ _ _ _ rfl, rfl⟩
  refine hpage.trans ?_
  cases step with
  | compile | compileNode => exact keeps_compile (R := World.StillChanges) h
  | _ => cases hcompiles

end Session

namespace World.Taken

variable {w w' : World} {renews : Ref → Prop} {list : Ref}

theorem moves (h : w.Taken renews w') : w.Moves w' := by
  cases h with
  | run hchanges => exact hchanges.moves
  | host hchanges host => exact hchanges.moves.tail (.host host)
  | define hchanges name r => exact hchanges.moves.trans (World.moves_define _ name r)
  | @attach w₁ hchanges r parse =>
    refine hchanges.moves.trans ?_
    rcases w₁.heap.attach_cases r parse with ⟨-, heq⟩ | ⟨cell, hr, heq⟩
    · rw [heq]
    · rw [heq]
      exact .single (.attach hr parse)
  | drop hchanges => exact hchanges.moves.trans (World.moves_dropCode _ _)

/-- A step that does not renew a list spares its code, if the code that runs does. -/
theorem spared (h : w.Taken renews w') (hw : w.Fresh) (hnot : ¬ renews list)
    (hruns : ∀ w₁, w.Changes w₁ → w₁.linked = w'.linked → w.Spared list w₁) :
    w.Spared list w' := by
  cases h with
  | run hchanges => exact hruns _ hchanges rfl
  | host hchanges host => exact (hruns _ hchanges rfl).tail (.host host)
  | define _ _ _ hall => exact absurd (hall list) hnot
  | @attach w₁ hchanges r parse hiff =>
    refine (hruns _ hchanges rfl).trans ?_
    rcases w₁.heap.attach_cases r parse with ⟨-, heq⟩ | ⟨cell, hr, heq⟩
    · rw [heq]
    · rw [heq]
      exact .single (.attach hr (fun heq => hnot ((hiff list).mpr heq.symm)) parse)
  | drop hchanges hiff =>
    refine (hruns _ hchanges (World.linked_dropCode _ _).symm).trans ?_
    exact World.spared_dropCode (hw.moves hchanges.moves) fun heq => hnot ((hiff list).mpr heq)

/-- A defined procedure keeps its body unless all lists are renewed. -/
theorem hasBody (h : w.Taken renews w') (hbody : w.HasBody list) (hnot : ¬ renews list) :
    w'.HasBody list := by
  refine hbody.mono h.moves.heap_extends ?_
  cases h with
  | run hchanges => exact hchanges.procedures_eq
  | host hchanges => exact hchanges.procedures_eq
  | define _ _ _ hall => exact absurd (hall list) hnot
  | attach hchanges => exact hchanges.procedures_eq
  | drop hchanges => exact (World.procedures_dropCode _ _).trans hchanges.procedures_eq

/-- After a step that renews a list, code for the list is linked anew. -/
theorem renewed (h : w.Taken renews w') (hw : w.Fresh) (hrenews : renews list) {heap : Heap}
    (hheap : w'.heap.Extends heap) {cell : Cell} (hcell : heap.cell? list = some cell) :
    ∃ time, w'.Renewed list w'.linked time := by
  have hw' := hw.moves h.moves
  cases hnone : w'.heap.cell? list with
  | none => exact ⟨0, .of_absent hw' hheap hcell hnone⟩
  | some cell' =>
    cases h with
    | run _ hno => exact absurd hrenews (hno list)
    | host _ _ hno => exact absurd hrenews (hno list)
    | define hchanges name r => exact ⟨_, .of_define (hw.moves hchanges.moves) list name r⟩
    | @attach w₁ hchanges r parse hiff =>
      obtain rfl := (hiff list).mp hrenews
      have hw₁ := hw.moves hchanges.moves
      rcases w₁.heap.attach_cases r parse with ⟨hr, heq⟩ | ⟨cell, hr, -⟩
      · dsimp only at hnone
        rw [heq, hr] at hnone
        cases hnone
      · exact ⟨_, .of_attach hw₁ hr parse⟩
    | drop hchanges hiff =>
      have hw₁ := hw.moves hchanges.moves
      rw [World.heap_dropCode] at hnone
      rw [World.linked_dropCode]
      exact ⟨0, .of_dropCode hw₁ ((hiff list).mp hrenews) hnone⟩

end World.Taken

/-! ### Whole sessions -/

namespace Session

/-- One session comes after another by some step. -/
def Next (s s' : Session) : Prop :=
  ∃ step answer, s.take step = .ok (answer, s')

/-- What a session can come to, starting with nothing but a host and settings. -/
def Reachable (s : Session) : Prop :=
  ∃ host settings random, Relation.ReflTransGen Next { world := { host, settings, random } } s

/-- A step that leaves a list as it is: the host keeps the list, and the step does not renew it. -/
def Leaves (list : Ref) (s s' : Session) : Prop :=
  list ∈ s.world.host.kept.map Prod.snd ∧
    ∃ step answer, s.take step = .ok (answer, s') ∧ ¬ step.Renews s.world list

/-- A step that does not renew a list. -/
def Passes (list : Ref) (s s' : Session) : Prop :=
  ∃ step answer, s.take step = .ok (answer, s') ∧ ¬ step.Renews s.world list

/-- A step that spares the code of a list: it does not renew the list, and if it links code,
something holds the list meanwhile. The host may keep the list, it may be the body of a defined
procedure, or a variable may have it while the step does nothing but compile. -/
def Spares (list : Ref) (s s' : Session) : Prop :=
  ∃ step answer, s.take step = .ok (answer, s') ∧ ¬ step.Renews s.world list ∧
    (s'.world.linked = s.world.linked ∨ s.world.Owns list ∨
      step.compiles = true ∧ list ∈ s.world.frames.references)

theorem fresh_start (host : Host) (settings : Settings) (random : Random) :
    ({ host, settings, random } : World).Fresh := by
  have hnone (r : Ref) : ({} : Heap).get r = .nothing := by
    unfold Heap.get
    by_cases hr : r.index = 0
    · simp [Array.getD, hr]
    · simp [Array.getD, hr]
  exact
    { sound :=
        { id_lt := fun {r i} hi => by simp [Heap.sourceId?, hnone] at hi
          id_inj := fun {r s i} hi => by simp [Heap.sourceId?, hnone] at hi
          stamp_le := fun {r cell} hcell => by simp [Heap.cell?, hnone, Object.cell?] at hcell }
      definition_le := le_rfl
      stored := fun e he => nomatch he }

theorem Next.moves {s s' : Session} (h : s.Next s') : s.world.Moves s'.world := by
  obtain ⟨step, answer, htake⟩ := h
  obtain ⟨w, hpage, -, htaken⟩ := taken_take htake
  exact htaken.moves.head (.change hpage)

theorem moves_of_next {s s' : Session} (h : Relation.ReflTransGen Next s s') :
    s.world.Moves s'.world := by
  induction h with
  | refl => exact .refl
  | tail _ hlast ih => exact ih.trans hlast.moves

theorem Reachable.fresh {s : Session} (hs : s.Reachable) : s.world.Fresh := by
  obtain ⟨host, settings, random, hnext⟩ := hs
  exact (fresh_start host settings random).moves (moves_of_next hnext)

/-- A step that spares the code of a list does so with each of its changes. -/
theorem Spares.spared {s s' : Session} {list : Ref} (h : s.Spares list s') (hw : s.world.Fresh) :
    s.world.Spared list s'.world := by
  obtain ⟨step, answer, htake, hnot, hheld⟩ := h
  obtain ⟨w, hpage, hlinked, htaken⟩ := taken_take htake
  have hw' := hw.move (.change hpage)
  have hfirst : s.world.Spared list w := .single (.change hpage fun hlt => by omega)
  rcases hheld with hsame | howns | ⟨hcompiles, hmem⟩
  · refine hfirst.trans (htaken.spared hw' hnot fun w₁ hchanges hlinked₁ => ?_)
    exact hchanges.spared_of_linked_eq (by omega)
  · refine hfirst.trans (htaken.spared hw' hnot fun w₁ hchanges _ => ?_)
    exact hchanges.spared_of_owns (howns.change hpage)
  · exact (stillChanges_take htake hcompiles).spared hmem

/-- Steps that spare the code of a list leave it in the cache. -/
theorem serves_of_spares {s s' : Session} {list : Ref} {entry : Entry} (hw : s.world.Fresh)
    (hs : s.world.Serves list entry) (h : Relation.ReflTransGen (Spares list) s s') :
    s'.world.Serves list entry := by
  suffices hall : s'.world.Serves list entry ∧ s'.world.Fresh from hall.1
  induction h with
  | refl => exact ⟨hs, hw⟩
  | tail _ hlast ih =>
    obtain ⟨hs, hw⟩ := ih
    have hspared := hlast.spared hw
    obtain ⟨step, answer, htake, -⟩ := hlast
    exact ⟨hs.spared hw hspared, hw.moves (Next.moves ⟨step, answer, htake⟩)⟩

theorem Leaves.spares {s s' : Session} {list : Ref} (h : s.Leaves list s') : s.Spares list s' := by
  obtain ⟨hkept, step, answer, htake, hnot⟩ := h
  exact ⟨step, answer, htake, hnot, .inr (.inl (.inl hkept))⟩

/-- As long as nothing renews the body of a defined procedure, every step spares its code. -/
theorem spares_of_passes {s s' : Session} {list : Ref} (hbody : s.world.HasBody list)
    (h : Relation.ReflTransGen (Passes list) s s') : Relation.ReflTransGen (Spares list) s s' := by
  suffices hall : Relation.ReflTransGen (Spares list) s s' ∧ s'.world.HasBody list from hall.1
  induction h with
  | refl => exact ⟨.refl, hbody⟩
  | tail _ hlast ih =>
    obtain ⟨hspares, hbody⟩ := ih
    obtain ⟨step, answer, htake, hnot⟩ := hlast
    obtain ⟨w, hpage, -, htaken⟩ := taken_take htake
    refine ⟨hspares.tail ⟨step, answer, htake, hnot, .inr (.inl (.inr hbody))⟩, ?_⟩
    exact htaken.hasBody (hbody.mono hpage.heap_extends hpage.procedures_eq) hnot

/-- A list that was compiled in a session has its code in the cache. -/
theorem Reachable.serves {s : Session} (hs : s.Reachable) {list : Ref}
    (hlist : (s.world.heap.cell? list).isSome) {pins : Pins} {procedure : Option Ref} {entry : Entry}
    {w : World} (h : (compileSource pins list procedure).run s.world = .ok (.ok entry, w)) :
    s.world.Moves w ∧ w.Serves list entry := by
  obtain ⟨cell, hcell⟩ := Option.isSome_iff_exists.mp hlist
  obtain ⟨hchanges, hserves⟩ := compileSource_cases hcell h
  exact ⟨hchanges.changes.moves, hserves entry rfl hs.fresh.definition_le⟩

/-- **The code cache never serves stale code.** Whenever a list is compiled in a session, the code
was lowered from the parse the list has at that moment; it was linked after the last step that
renewed the list, in particular after the last definition; and as long as the list is kept and not
renewed, whatever else happens, compiling it gives the same code again and does nothing but count the
look-up: nothing is parsed, lowered or linked. -/
theorem compileList_upToDate {s : Session} (hs : s.Reachable) {list : Ref}
    (hlist : (s.world.heap.cell? list).isSome) {pins : Pins} {entry : Entry} {w : World}
    (h : (compileList pins list).run s.world = .ok (.ok entry, w)) :
    (∃ cell parse, w.heap.cell? list = some cell ∧ cell.parse = some parse ∧
      w.Lowered list parse entry.code ∧ entry.number < w.linked) ∧
    (∀ s₀ step answer s₁, Reachable s₀ → s₀.take step = .ok (answer, s₁) →
      step.Renews s₀.world list → Relation.ReflTransGen Next s₁ s →
      s₁.world.linked ≤ entry.number) ∧
    ∀ s', Relation.ReflTransGen (Leaves list) { s with world := w } s' → ∀ pins',
      (compileList pins' list).run s'.world = .ok (.ok entry, { s'.world with
        cache := { s'.world.cache with hits := s'.world.cache.hits + 1 } }) := by
  obtain ⟨hcompiled, hserves⟩ := hs.serves hlist h
  have hw := hs.fresh.moves hcompiled
  refine ⟨?_, ?_, ?_⟩
  · obtain ⟨cell', stored, hcell', -, -, hfind, hstamp, rfl⟩ := hserves
    have hstored := hw.stored stored (Cache.mem_of_find? hfind)
    have hsource := hw.source_eq hcell' hfind
    obtain ⟨parse, hparse, hlowered⟩ := hstored.lowered cell' (hsource ▸ hcell') hstamp
    exact ⟨cell', parse, hcell', hparse, hsource ▸ hlowered, hstored.number_lt⟩
  · intro s₀ step answer s₁ hs₀ htake hrenews hnext
    obtain ⟨w₀, hpage, -, htaken⟩ := taken_take htake
    have hw₀ := hs₀.fresh.move (.change hpage)
    have hmoves := moves_of_next hnext
    obtain ⟨cell, hcell⟩ := Option.isSome_iff_exists.mp hlist
    obtain ⟨time, hrenewed⟩ := htaken.renewed hw₀ hrenews hmoves.heap_extends hcell
    have hw₁ := hw₀.moves htaken.moves
    exact (hrenewed.moves hw₁ (hmoves.trans hcompiled)).number_le hw hserves
  · intro s' hleaves pins'
    have hspares := Relation.ReflTransGen.mono (fun _ _ => Leaves.spares) _ _ hleaves
    have hserves' := serves_of_spares (s := { s with world := w }) hw hserves hspares
    exact hserves'.compileSource_run pins' none

/-- The session after a step, or the session itself if the step halts. -/
def after (s : Session) (step : Step) : Session :=
  match s.take step with
  | .ok (_, s') => s'
  | .error _ => s

theorem exists_take_after {s : Session} {step : Step} (h : (s.take step).isOk = true) :
    ∃ answer, s.take step = .ok (answer, s.after step) := by
  unfold after
  cases htake : s.take step with
  | error halt => rw [htake] at h; cases h
  | ok out => exact ⟨out.1, rfl⟩

/-- A compilation that ends with code. -/
theorem exists_of_any_isOk {out : Except Halt (Except CompileError Entry × World)}
    (h : out.toOption.any (·.1.isOk) = true) : ∃ entry w, out = .ok (.ok entry, w) := by
  rcases out with halt | ⟨e | entry, w⟩
  · cases h
  · cases h
  · exact ⟨entry, w, rfl⟩

/-- A session that compiled the list `[hello]`. -/
def compiledPage : Session :=
  (({} : Session).after (.keep "page" (.code [[.literal (.text "hello")]]))).after (.compile "page")

/-- The list then got another parse. -/
def renewedPage : Session :=
  compiledPage.after (.attach (.kept "page") [[.literal (.text "bye")]])

/-- The list is compiled anew, from its new parse and once: drawing a new random seed leaves the
code. -/
theorem upToDate_renewedPage : ∃ entry w,
    (compileList [] ⟨5⟩).run renewedPage.world = .ok (.ok entry, w) ∧
    (∃ cell parse, w.heap.cell? ⟨5⟩ = some cell ∧ cell.parse = some parse ∧
      w.Lowered ⟨5⟩ parse entry.code) ∧ 1 ≤ entry.number ∧
    ∃ s' w', take { renewedPage with world := w } (.seed 7) = .ok (.done, s') ∧
      (compileList [] ⟨5⟩).run s'.world = .ok (.ok entry, w') ∧ w'.linked = s'.world.linked := by
  obtain ⟨_, hkeep⟩ := @exists_take_after {} (.keep "page" (.code [[.literal (.text "hello")]]))
    (by decide +kernel)
  obtain ⟨_, hcompile⟩ := @exists_take_after
    (({} : Session).after (.keep "page" (.code [[.literal (.text "hello")]])))
    (.compile "page") (by decide +kernel)
  obtain ⟨_, hattach⟩ := @exists_take_after compiledPage
    (.attach (.kept "page") [[.literal (.text "bye")]]) (by decide +kernel)
  have hcompiled : compiledPage.Reachable :=
    ⟨{}, {}, ⟨0⟩, .tail (.single ⟨_, _, hkeep⟩) ⟨_, _, hcompile⟩⟩
  have hreachable : renewedPage.Reachable := by
    obtain ⟨host, settings, random, hnext⟩ := hcompiled
    exact ⟨host, settings, random, hnext.tail ⟨_, _, hattach⟩⟩
  have hruns : ((compileList [] ⟨5⟩).run renewedPage.world).toOption.any (·.1.isOk) = true := by
    decide +kernel
  obtain ⟨entry, w, hrun⟩ := exists_of_any_isOk hruns
  have hlist : (renewedPage.world.heap.cell? ⟨5⟩).isSome := by decide +kernel
  obtain ⟨⟨cell, parse, hcell, hparse, hlowered, -⟩, hrenewed, hagain⟩ :=
    compileList_upToDate hreachable hlist hrun
  have hsame : (compiledPage.world.built (.kept "page")).1 = ⟨5⟩ := by decide +kernel
  have hnumber : renewedPage.world.linked ≤ entry.number :=
    hrenewed _ _ _ _ hcompiled hattach hsame .refl
  have hkept : (⟨5⟩ : Ref) ∈ w.host.kept.map Prod.snd := by
    obtain ⟨_, hcell⟩ := Option.isSome_iff_exists.mp hlist
    rw [(compileSource_cases hcell hrun).1.changes.kept_eq]
    decide +kernel
  have hrun' := hagain _ (.single ⟨hkept, .seed 7, .done, rfl, fun h => h⟩) []
  refine ⟨entry, w, hrun, ⟨cell, parse, hcell, hparse, hlowered⟩, ?_, _, _, rfl, hrun', rfl⟩
  exact (show 1 ≤ renewedPage.world.linked by decide +kernel).trans hnumber

/-! ### Lists that something else holds -/

/-- **Code is linked once between two renewals**, whatever holds the list: compiling it again gives
the same code and does nothing but count the look-up, as long as every step in between spares it. -/
theorem compileSource_again {s : Session} (hs : s.Reachable) {list : Ref}
    (hlist : (s.world.heap.cell? list).isSome) {pins : Pins} {procedure : Option Ref} {entry : Entry}
    {w : World} (h : (compileSource pins list procedure).run s.world = .ok (.ok entry, w))
    {s' : Session} (hspares : Relation.ReflTransGen (Spares list) { s with world := w } s')
    (pins' : Pins) (procedure' : Option Ref) :
    (compileSource pins' list procedure').run s'.world = .ok (.ok entry, { s'.world with
      cache := { s'.world.cache with hits := s'.world.cache.hits + 1 } }) := by
  obtain ⟨hcompiled, hserves⟩ := hs.serves hlist h
  have hw := hs.fresh.moves hcompiled
  have hserves' := serves_of_spares (s := { s with world := w }) hw hserves hspares
  exact hserves'.compileSource_run pins' procedure'

/-- **The body of a defined procedure is linked once between two renewals**, be it for a call or as a
list of its own, and whatever else the session does. -/
theorem compileSource_body_again {s : Session} (hs : s.Reachable) {list : Ref}
    (hbody : s.world.HasBody list) (hlist : (s.world.heap.cell? list).isSome) {pins : Pins}
    {procedure : Option Ref} {entry : Entry} {w : World}
    (h : (compileSource pins list procedure).run s.world = .ok (.ok entry, w)) {s' : Session}
    (hpasses : Relation.ReflTransGen (Passes list) { s with world := w } s') (pins' : Pins)
    (procedure' : Option Ref) :
    (compileSource pins' list procedure').run s'.world = .ok (.ok entry, { s'.world with
      cache := { s'.world.cache with hits := s'.world.cache.hits + 1 } }) := by
  refine compileSource_again hs hlist h (spares_of_passes ?_ hpasses) pins' procedure'
  have hchanges : s.world.Changes w := Run.Keeps.keeps h
  exact hbody.mono hchanges.heap_extends hchanges.procedures_eq

end Session

end LogoEngine
