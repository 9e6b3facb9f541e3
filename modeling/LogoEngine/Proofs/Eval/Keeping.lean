import LogoEngine.Eval.TopLevel
import LogoEngine.Proofs.Code.Typing
import LogoEngine.Proofs.Heap.Changes
import Mathlib.Order.Defs.Unbundled

/-!
# What a computation keeps

A computation **keeps** a relation between evaluators if it relates the evaluator it starts with to
the one it ends with (`Run.Keeps`). A preorder that is kept by the parts of a computation is kept by
the whole, so that one walk through the evaluator serves every relation: errors, operations on data
and output keep whatever allows objects to be made and the host to be asked (`Permissive`), the
helpers whatever also allows variables to be set (`Permissive.Scoped`), and code, activations and
calls keep what their helpers, their code and their activations do.

Main statement: `Permissive.Scoped.callHelper`, which lists the helpers that do more.
-/

namespace LogoEngine

/-! ### First parts -/

namespace Run

variable {α β : Type}

theorem get_bind (f : World → Run β) (w : World) : (get >>= f) w = f w w := rfl

theorem heap_bind (f : Heap → Run β) (w : World) : (Run.heap >>= f) w = f w.heap w := rfl

theorem modifyFrames_bind (g : Frames → Frames) (f : Unit → Run β) (w : World) :
    (Run.modifyFrames g >>= f) w = f () { w with frames := g w.frames } := rfl

theorem withHost_bind (f : Host → α × Host) (g : α → Run β) (w : World) :
    (Run.withHost f >>= g) w = g (f w.host).1 { w with host := (f w.host).2 } := rfl

/-- What comes after a first part that ends. -/
theorem bind_of_ok {m : Run α} {a : α} {w w' : World} (h : m w = .ok (a, w')) (f : α → Run β) :
    (m >>= f) w = f a w' := by
  show (m w >>= fun out => f out.1 out.2) = _
  rw [h]
  rfl

/-- A computation that ends went through its first part. -/
theorem bind_eq_ok {m : Run α} {f : α → Run β} {w w' : World} {b : β}
    (h : (m >>= f) w = .ok (b, w')) : ∃ a w₁, m w = .ok (a, w₁) ∧ f a w₁ = .ok (b, w') := by
  have h' : (m w >>= fun out => f out.1 out.2) = .ok (b, w') := h
  obtain ⟨⟨a, w₁⟩, hfirst, hrest⟩ := bind_eq_ok_iff.mp h'
  exact ⟨a, w₁, hfirst, hrest⟩

end Run

/-- A computation that relates the evaluator before it to the one after it, if it ends. -/
class Run.Keeps {α : Type} (R : World → World → Prop) (m : Run α) : Prop where
  keeps : ∀ {w a w'}, m w = .ok (a, w') → R w w'

/-! ### Elementary computations -/

namespace Run

variable {α β : Type} {R : World → World → Prop}

theorem Keeps.mono {R' : World → World → Prop} {m : Run α} (hm : Keeps R m)
    (h : ∀ {w w'}, R w w' → R' w w') : Keeps R' m :=
  ⟨fun hrun => h (hm.keeps hrun)⟩

instance (c : Prop) [Decidable c] {m m' : Run α} [Keeps R m] [Keeps R m'] :
    Keeps R (if c then m else m') := by
  split <;> infer_instance

instance (halt : Halt) : Keeps R (throw halt : Run α) :=
  ⟨fun h => by cases h⟩

variable [hR : IsPreorder World R]

instance (a : α) : Keeps R (pure a) :=
  ⟨fun {w _ _} h => by cases h; exact hR.refl w⟩

theorem Keeps.bind {m : Run α} {f : α → Run β} (hm : Keeps R m) (hf : ∀ a, Keeps R (f a)) :
    Keeps R (m >>= f) := by
  refine ⟨fun {w b w'} h => ?_⟩
  obtain ⟨a, w₁, hfirst, hrest⟩ := bind_eq_ok h
  exact hR.trans _ _ _ (hm.keeps hfirst) ((hf a).keeps hrest)

instance {m : Run α} {f : α → Run β} [hm : Keeps R m] [hf : ∀ a, Keeps R (f a)] :
    Keeps R (m >>= f) :=
  hm.bind hf

instance {m : Run α} {f : α → β} [Keeps R m] : Keeps R (f <$> m) := by
  rw [map_eq_pure_bind]; infer_instance

instance : Keeps R (get : Run World) :=
  ⟨fun {w _ _} h => by cases h; exact hR.refl w⟩

instance : Keeps R Run.heap := by unfold Run.heap; infer_instance

instance (f : β → α → Run β) [∀ b a, Keeps R (f b a)] (b : β) (as : List α) :
    Keeps R (as.foldlM f b) := by
  induction as generalizing b with
  | nil => rw [List.foldlM_nil]; infer_instance
  | cons a as _ => rw [List.foldlM_cons]; infer_instance

instance (f : α → Run β) [∀ a, Keeps R (f a)] (as : List α) : Keeps R (as.mapM f) := by
  induction as with
  | nil => rw [List.mapM_nil]; infer_instance
  | cons a as _ => rw [List.mapM_cons]; infer_instance

instance (f : α → Run β) [∀ a, Keeps R (f a)] (a : Option α) : Keeps R (a.mapM f) := by
  cases a with
  | none => exact inferInstanceAs (Keeps R (pure none))
  | some a => exact inferInstanceAs (Keeps R (some <$> f a))

end Run

/-- A relation that allows what making objects, raising errors and asking the host do. -/
class Permissive (R : World → World → Prop) : Prop extends IsPreorder World R where
  heap : ∀ {w : World} {h : Heap}, w.heap.Change h → R w { w with heap := h }
  aside : ∀ (w : World) (currentError : Option Ref) (random : Random) {host : Host},
    host.kept = w.host.kept → R w { w with currentError, random, host }

theorem Permissive.changes {R : World → World → Prop} [hR : Permissive R] {w : World} {h : Heap}
    (hc : w.heap.Changes h) : R w { w with heap := h } := by
  induction hc with
  | refl => exact hR.refl w
  | tail _ hlast ih => exact hR.trans _ _ _ ih (hR.heap hlast)

section

variable {R : World → World → Prop} [hR : Permissive R] {α : Type}

instance (f : Making α) [hf : Making.Changes f] : Run.Keeps R (Run.making f) :=
  ⟨fun {w _ _} h => by cases h; exact Permissive.changes (hf.changes w.heap)⟩

/-- A question after which the host keeps what it kept. -/
theorem Run.Keeps.withHost {f : Host → α × Host} (hf : ∀ host, (f host).2.kept = host.kept) :
    Run.Keeps R (Run.withHost f) :=
  ⟨fun {w _ _} h => by cases h; exact hR.aside w _ _ (hf w.host)⟩

instance (s : String) : Run.Keeps R (Run.write s) := .withHost fun _ => rfl

instance (r : Option Ref) : Run.Keeps R (modify fun w => { w with currentError := r }) :=
  ⟨fun {w _ _} h => by cases h; exact hR.aside w r _ rfl⟩

instance (random : Random) : Run.Keeps R (modify fun w => { w with random }) :=
  ⟨fun {w _ _} h => by cases h; exact hR.aside w _ random rfl⟩

/-! ### Errors -/

instance (e : ErrorRecord) : Making.Changes (newObject (.error e)) := changes_newObject rfl
instance (r : Ref) (v : Option Ref) : Making.Changes (newObject (.ret r v)) :=
  changes_newObject rfl
instance (r s : Ref) : Making.Changes (newObject (.goto r s)) := changes_newObject rfl
instance (r s : Ref) (args : List Ref) : Making.Changes (newObject (.continuation r s args)) :=
  changes_newObject rfl

instance (code : ErrorCode) (tag : Ref) (message : String) (output : Option Ref) :
    Run.Keeps R (raiseWith code tag message output) := by
  unfold raiseWith; infer_instance

instance (code : ErrorCode) (args : List Ref) : Run.Keeps R (raise code args) := by
  unfold raise; infer_instance

instance (who what : Ref) : Run.Keeps R (raiseDoesntLike who what) := by
  unfold raiseDoesntLike; infer_instance

instance (what : Ref) : Run.Keeps R (raiseDontSay what) := by
  unfold raiseDontSay; infer_instance

instance (source who : Ref) : Run.Keeps R (raiseDidntOutput source who) := by
  unfold raiseDidntOutput; infer_instance

instance (tag : Ref) (output : Option Ref) : Run.Keeps R (throwTag tag output) := by
  unfold throwTag
  refine .bind inferInstance fun h => ?_
  dsimp only
  split
  · split <;> infer_instance
  · infer_instance

instance (tag : String) (output : Option Ref) : Run.Keeps R (throwNamed tag output) := by
  unfold throwNamed; infer_instance

instance (source : Ref) (failure : CompileError) :
    Run.Keeps R (raiseCompileFailure source failure) := by
  unfold raiseCompileFailure; infer_instance

end

/-! ### Operations on data -/

/-- The result of an operation on data is made by changes, or by one change. -/
def DataResult.Changes (h : Heap) : DataResult → Prop
  | made make => Making.Changes make
  | changed target object => h.Change (h.set target object)
  | found _ | dislikes _ => True

namespace DataResult

variable (h : Heap)

@[simp]
theorem changes_found (r : Ref) : (found r).Changes h := trivial

@[simp]
theorem changes_dislikes (r : Ref) : (dislikes r).Changes h := trivial

@[simp]
theorem changes_made (make : Making Ref) [hm : Making.Changes make] : (made make).Changes h := hm

@[simp]
theorem changes_text (s : String) : (text s).Changes h := changes_made h _

@[simp]
theorem changes_chars (cs : List Char) : (chars cs).Changes h := changes_made h _

@[simp]
theorem changes_truth (b : Bool) : (truth b).Changes h := changes_made h _

@[simp]
theorem changes_orDislike (r : Option Ref) (culprit : Ref) : (orDislike r culprit).Changes h := by
  cases r <;> trivial

end DataResult

instance (size : Nat) (origin : Int) : Making.Changes (newBlankArray size origin) := by
  unfold newBlankArray; infer_instance

theorem changes_dataResult (h : Heap) (op : DataOp) (args : List Ref) :
    (dataResult h op args).Changes h := by
  cases op
  case setItem | dotSetItem =>
    simp only [dataResult]
    split
    · next origin items hget =>
      split
      · exact DataResult.changes_dislikes h _
      · split
        · exact Heap.Change.setItems hget _
        · exact DataResult.changes_dislikes h _
    · exact DataResult.changes_dislikes h _
  case dotSetFirst =>
    simp only [dataResult]
    split
    · next hcell => exact Heap.Change.setPair hcell _
    · exact DataResult.changes_dislikes h _
  case dotSetBf =>
    simp only [dataResult]
    split
    · exact DataResult.changes_dislikes h _
    · exact DataResult.changes_dislikes h _
    · next hcell _ => exact Heap.Change.setPair hcell _
    · exact DataResult.changes_dislikes h _
  -- every other operation finds a value or makes one
  all_goals
    simp only [dataResult]
    repeat' split
    all_goals simp

theorem Host.kept_pause (host : Host) : host.pause.2.kept = host.kept := by
  unfold Host.pause
  cases host.plain
  · cases host.replies <;> rfl
  · rfl

theorem Host.kept_parse (host : Host) (shown : String) : (host.parse shown).2.kept = host.kept := by
  unfold Host.parse
  split <;> rfl

theorem Host.kept_moveTurtle (host : Host) (name : String) (args : List Float)
    (move? : Canvas → Option Canvas) : (host.moveTurtle name args move?).2.kept = host.kept := by
  unfold Host.moveTurtle
  split
  · rfl
  · dsimp only
    split <;> rfl

section

variable {R : World → World → Prop} [hR : Permissive R]

instance (name : Ref) : Run.Keeps R (variableNamed name) := by
  unfold variableNamed
  refine .bind inferInstance fun w => ?_
  split <;> infer_instance

instance (op : DataOp) (node : Ref) (args : List Ref) : Run.Keeps R (applyData op node args) := by
  refine ⟨fun {w r w'} h => ?_⟩
  unfold applyData at h
  split at h
  · exact Run.Keeps.keeps h
  · rw [Run.heap_bind] at h
    have hresult := changes_dataResult w.heap op args
    generalize dataResult w.heap op args = result at h hresult
    cases result with
    | found r =>
      cases h
      exact hR.refl w
    | made make =>
      have : Making.Changes make := hresult
      exact Run.Keeps.keeps (m := Run.making make) h
    | changed target object =>
      cases h
      exact hR.heap hresult
    | dislikes culprit => exact Run.Keeps.keeps (m := raiseDoesntLike node culprit) h

/-! ### Output, the host and random numbers -/

instance (mode : WriteMode) (values : List Ref) : Run.Keeps R (writeValues mode values) := by
  unfold writeValues; infer_instance

instance (r : Ref) : Run.Keeps R (writeError r) := by
  unfold writeError
  refine .bind inferInstance fun h => ?_
  split <;> infer_instance

instance (value width places : Float) : Run.Keeps R (formText value width places) := by
  unfold formText; infer_instance

instance : Run.Keeps R pauseForValue := by
  unfold pauseForValue
  refine .bind (.withHost Host.kept_pause) fun reply => ?_
  split <;> infer_instance

instance : Run.Keeps R errorList := by
  refine ⟨fun {w r w'} h => ?_⟩
  unfold errorList at h
  rw [Run.get_bind] at h
  obtain ⟨_, w₁, hset, hrest⟩ := Run.bind_eq_ok h
  cases hset
  refine hR.trans _ _ _ (hR.aside w none w.random rfl) ?_
  cases hrecord : w.currentError.bind fun r => (w.heap.get r).error? with
  | none =>
    rw [hrecord] at hrest
    exact Run.Keeps.keeps hrest
  | some e =>
    rw [hrecord] at hrest
    obtain ⟨code, tag, message, output, procedure, line⟩ := e
    cases procedure <;> cases line <;> exact Run.Keeps.keeps hrest

instance (outcome : Except ErrorCode Unit) : Run.Keeps R (turtleResult outcome) := by
  unfold turtleResult
  split <;> infer_instance

instance (node pos : Ref) (act : Float → Float → Run Ref) [∀ x y, Run.Keeps R (act x y)] :
    Run.Keeps R (atPosition node pos act) := by
  unfold atPosition
  refine .bind inferInstance fun h => ?_
  split <;> infer_instance

instance (low high : Int64) : Run.Keeps R (drawBetween low high) :=
  ⟨fun {w _ _} h => by cases h; exact hR.aside w _ _ rfl⟩

instance (op : TurtleOp) (args : List Float) :
    Run.Keeps R (Run.withHost fun host => host.turtle op args) :=
  .withHost fun host => host.kept_moveTurtle ..

instance (x y : Float) : Run.Keeps R (Run.withHost fun host => host.setPos x y) :=
  .withHost fun host => host.kept_moveTurtle ..

instance (source : Ref) : Run.Keeps R (parseSource source) := by
  unfold parseSource
  refine .bind inferInstance fun h => ?_
  refine .bind (.withHost fun host => host.kept_parse _) fun groups => ?_
  split <;> infer_instance

end

/-! ### Helpers -/

/-- A relation that also allows what running code does to variables and tests. -/
class Permissive.Scoped (R : World → World → Prop) : Prop extends Permissive R where
  set : ∀ (w : World) key value, R w { w with frames := w.frames.set key value }
  bind : ∀ (w : World) key value, R w { w with frames := w.frames.bind key value }
  test : ∀ (w : World) truth, R w
    { w with frames := w.frames.modifyTop fun frame => { frame with test := some truth } }

/-- Running lists and procedures keeps a relation. -/
class Reenter.Keeps (R : World → World → Prop) (re : Reenter) : Prop where
  list : ∀ pins r, Run.Keeps R (re.list pins r)
  procedure : ∀ pins node args, Run.Keeps R (re.procedure pins node args)

attribute [instance] Reenter.Keeps.list Reenter.Keeps.procedure

section

variable {R : World → World → Prop} [hR : Permissive.Scoped R]

instance (key : String) (value : Ref) :
    Run.Keeps R (Run.modifyFrames fun fs => fs.set key value) :=
  ⟨fun {w _ _} h => by cases h; exact hR.set w key value⟩

instance (key : String) (value : Ref) :
    Run.Keeps R (Run.modifyFrames fun fs => fs.bind key value) :=
  ⟨fun {w _ _} h => by cases h; exact hR.bind w key value⟩

instance (truth : Bool) : Run.Keeps R (Run.modifyFrames fun fs =>
    fs.modifyTop fun frame => { frame with test := some truth }) :=
  ⟨fun {w _ _} h => by cases h; exact hR.test w truth⟩

theorem Permissive.Scoped.bindAll (w : World) (names : List String) (value : Ref) :
    R w { w with frames := names.foldl (fun fs key => fs.bind key value) w.frames } := by
  induction names generalizing w with
  | nil => exact hR.refl w
  | cons name names ih =>
    exact hR.trans _ _ _ (hR.bind w name value) (ih { w with frames := w.frames.bind name value })

instance (names : List String) : Run.Keeps R (Run.modifyFrames fun fs =>
    names.foldl (fun fs key => fs.bind key Ref.nothing) fs) :=
  ⟨fun {w _ _} h => by cases h; exact Permissive.Scoped.bindAll w names Ref.nothing⟩

instance : Run.Keeps R beginCatch := by
  unfold beginCatch; infer_instance

instance (stash tag node result : Ref) : Run.Keeps R (endCatch stash tag node result) := by
  unfold endCatch
  refine .bind inferInstance fun h => ?_
  dsimp only
  split
  · refine .bind inferInstance fun _ => ?_
    split <;> infer_instance
  · split <;> infer_instance

instance (node : Ref) (args : List Ref) : Run.Keeps R (makeLocal node args) := by
  induction args with
  | nil => unfold makeLocal; infer_instance
  | cons r rest ih => unfold makeLocal; infer_instance

/-- **The helpers.** All of them but the one that sets the number of repetitions keep a relation
that allows changes of variables and tests. -/
theorem Permissive.Scoped.callHelper (re : Reenter) [Reenter.Keeps R re] (pins : Pins)
    {helper : Helper} (hhelper : helper ≠ .setRepcount) (args : List Value) :
    Run.Keeps R (callHelper re pins helper args) := by
  unfold LogoEngine.callHelper
  cases helper
  case setRepcount => exact absurd rfl hhelper
  all_goals infer_instance

end

/-! ### Code -/

section

variable {R : World → World → Prop} [IsPreorder World R] {re : Reenter}
  [∀ pins helper args, Run.Keeps R (callHelper re pins helper args)]

instance (pins : Pins) (code : Linked) (block : Int) (regs : Array Value) (i : Instr) :
    Run.Keeps R (runInstr re pins code block regs i) := by
  unfold runInstr
  split
  · refine .bind inferInstance fun out => ?_
    split <;> infer_instance
  · split <;> infer_instance

instance (pins : Pins) (code : Linked) (block : Int) (regs : Array Value) (is : List Instr) :
    Run.Keeps R (runInstrs re pins code block regs is) := by
  induction is generalizing regs with
  | nil => unfold runInstrs; infer_instance
  | cons i rest ih => unfold runInstrs; infer_instance

instance (pins : Pins) (code : Linked) (block : Int) (fuel : Nat) (regs : Array Value)
    (position : Nat) : Run.Keeps R (runBlocks re pins code block fuel regs position) := by
  induction fuel generalizing regs position with
  | zero => unfold runBlocks; infer_instance
  | succ fuel ih =>
    unfold runBlocks
    split
    · infer_instance
    · refine .bind inferInstance fun regs => ?_
      split <;> infer_instance

instance (fuel : Nat) (pins : Pins) (code : Linked) (block : Int) :
    Run.Keeps R (runCode re fuel pins code block) := by
  unfold runCode; infer_instance

end

/-! ### Activations and calls -/

section

variable {R : World → World → Prop} [hR : Permissive R] {re : Reenter} {loop : Nat}

instance [∀ pins source procedure, Run.Keeps R (compileSource pins source procedure).run]
    (pins : Pins) (source : Ref) : Run.Keeps R (compileList pins source).run := by
  unfold compileList; infer_instance

/-- A body keeps what its code keeps, however often it jumps. -/
theorem Run.Keeps.runJumps {code : Linked} {pins : Pins}
    (hcode : ∀ block, Run.Keeps R (runCode re loop pins code block)) (procedure : Ref)
    (fuel : Nat) (block : Int) :
    Run.Keeps R (runJumps re loop pins procedure code fuel block) := by
  induction fuel generalizing block with
  | zero => unfold LogoEngine.runJumps; infer_instance
  | succ fuel ih =>
    unfold LogoEngine.runJumps
    refine .bind (hcode block) fun result => .bind inferInstance fun h => ?_
    split
    · split <;> infer_instance
    · infer_instance

instance {pins : Pins} {code : Linked} [∀ block, Run.Keeps R (runCode re loop pins code block)]
    (procedure : Ref) (fuel : Nat) (block : Int) :
    Run.Keeps R (runJumps re loop pins procedure code fuel block) :=
  .runJumps (fun _ => inferInstance) procedure fuel block

instance (a : Activation) (value : Option Ref) : Run.Keeps R (a.finish value) := by
  unfold Activation.finish
  split <;> infer_instance

/-- A call keeps what every activation keeps, through all its tail calls. -/
instance [∀ pins procedure call args, Run.Keeps R (invoke re loop pins procedure call args)]
    (pins : Pins) (fuel : Nat) (a : Activation) :
    Run.Keeps R (runCalls re loop pins fuel a) := by
  induction fuel generalizing a with
  | zero => unfold runCalls; infer_instance
  | succ fuel ih =>
    unfold runCalls
    refine .bind inferInstance fun w => ?_
    split
    · infer_instance
    · split
      · infer_instance
      · refine .bind inferInstance fun result => .bind inferInstance fun h => ?_
        split <;> infer_instance

section

variable [∀ f, Run.Keeps R (Run.modifyFrames fun fs => fs.modifyTop f)]

instance (names : List String) (args : List Ref) : Run.Keeps R (bindRequired names args) := by
  induction names generalizing args with
  | nil => unfold bindRequired; infer_instance
  | cons name names ih => unfold bindRequired Frames.bind; infer_instance

instance (rest : Option String) (args : List Ref) : Run.Keeps R (bindRest rest args) := by
  unfold bindRest Frames.bind
  split <;> infer_instance

variable [∀ pins r, Run.Keeps R (re.list pins r)]

instance (pins : Pins) (call : Ref) (params : List (String × Ref)) (args : List Ref) :
    Run.Keeps R (bindOptional re pins call params args) := by
  induction params generalizing args with
  | nil => unfold bindOptional; infer_instance
  | cons param params ih =>
    obtain ⟨name, default⟩ := param
    cases args <;> unfold bindOptional Frames.bind <;> infer_instance

instance [∀ pins source procedure, Run.Keeps R (compileSource pins source procedure).run]
    [∀ fuel pins code block, Run.Keeps R (runCode re fuel pins code block)] (fuel : Nat)
    (pins : Pins) (procedure call : Ref) (p : Procedure) (args : List Ref) :
    Run.Keeps R (runBody re fuel pins procedure call p args) := by
  unfold runBody
  refine .bind inferInstance fun args => .bind inferInstance fun bound => ?_
  split
  · infer_instance
  · refine .bind inferInstance fun _ => .bind inferInstance fun compiled => ?_
    split <;> infer_instance

end

instance [∀ f, Run.Keeps R (Run.modifyFrames f)]
    [∀ pins procedure call p args, Run.Keeps R (runBody re loop pins procedure call p args)]
    (pins : Pins) (procedure call : Ref) (args : List Ref) :
    Run.Keeps R (invoke re loop pins procedure call args) := by
  unfold invoke
  refine .bind inferInstance fun h => ?_
  split <;> infer_instance

end

/-! ### The top level -/

section

variable {R : World → World → Prop} [hR : Permissive R]

instance (source : Ref) : Run.Keeps R (strayToken source) := by
  unfold strayToken; infer_instance

instance (fuel : Nat) [Reenter.Keeps R (engine fuel)] (pins : Pins) (list : Ref) :
    Run.Keeps R (execute fuel pins list) := by
  unfold execute
  refine .bind inferInstance fun result => .bind inferInstance fun h => ?_
  split <;> infer_instance

end

end LogoEngine
