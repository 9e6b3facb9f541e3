import LogoEngine.Proofs.Eval.Frames
import LogoEngine.Proofs.Eval.Leaving
import LogoEngine.Proofs.Eval.Raising

/-!
# How a procedure gets its inputs

A call with too few or too many arguments is refused before anything else happens. In all other
cases the arguments are bound in the new frame, from the first input on. An optional input without an
argument gets what its default list comes to, which is run in the new frame when all inputs before it
are bound; the rest input gets a list of the arguments that are left.

A default list is a program. It can assign to inputs that are bound already, and so an input has the
value it was bound to when the body starts if no default list that was run later changed it.

Main statement: `invoke_inputs`.
-/

namespace LogoEngine

/-! ### Lists that were just made -/

theorem newList_cons (head : Ref) (items : List Ref) (h : Heap) :
    newList (head :: items) h =
      newCell (some (head, (newList items h).1)) (newList items h).2 := by
  unfold newList
  rw [List.reverse_cons]
  simp only [List.foldlM_append, List.foldlM_cons, List.foldlM_nil, bind_pure]
  rfl

theorem size_newCell (pair : Option (Ref × Ref)) (h : Heap) :
    (newCell pair h).2.objects.size = h.objects.size + 1 := by
  simp [newCell, nextId, newObject, Heap.add, bind, StateT.bind]

theorem Heap.Grows.newCell (pair : Option (Ref × Ref)) (h : Heap) :
    h.Grows (newCell pair h).2 where
  size_le := by rw [size_newCell]; exact Nat.le_succ _
  get_eq _ hr := Heap.get_add_of_lt { h with nextId := h.nextId + 1 } _ hr

/-- A cell is what it was made, also when more objects were made since. -/
theorem pair?_newCell {pair : Option (Ref × Ref)} {h h' : Heap}
    (hgrows : (newCell pair h).2.Grows h') : h'.pair? (newCell pair h).1 = pair := by
  have hsize : (newCell pair h).1.index < (newCell pair h).2.objects.size := by
    rw [size_newCell]
    exact Nat.lt_succ_self h.objects.size
  have hget : h'.get (newCell pair h).1 = .list ⟨h.nextId, pair, 0, none⟩ :=
    (hgrows.get_eq _ hsize).trans (Heap.get_add_self { h with nextId := h.nextId + 1 } _)
  exact congrArg (fun o => o.cell?.bind Cell.pair) hget

theorem length_lt_size_newList (items : List Ref) (h : Heap) :
    items.length < (newList items h).2.objects.size := by
  induction items with
  | nil =>
    have hsize : (newList [] h).2.objects.size = h.objects.size + 1 := size_newCell none h
    simp only [hsize, List.length_nil]
    omega
  | cons head items ih =>
    rw [newList_cons, size_newCell, List.length_cons]
    omega

theorem itemsUpTo_newList {items : List Ref} {h h' : Heap} {fuel : Nat}
    (hgrows : (newList items h).2.Grows h') (hfuel : items.length < fuel) :
    h'.itemsUpTo fuel (newList items h).1 = items := by
  induction items generalizing fuel with
  | nil =>
    obtain ⟨fuel, rfl⟩ : ∃ n, fuel = n + 1 := ⟨fuel - 1, by omega⟩
    have hpair : h'.pair? (newList [] h).1 = none := pair?_newCell hgrows
    rw [Heap.itemsUpTo, hpair]
  | cons head items ih =>
    obtain ⟨fuel, rfl⟩ : ∃ n, fuel = n + 1 := ⟨fuel - 1, by omega⟩
    rw [newList_cons] at hgrows ⊢
    have htail := ih ((Heap.Grows.newCell _ _).trans hgrows) (Nat.lt_of_succ_lt_succ hfuel)
    rw [Heap.itemsUpTo, pair?_newCell hgrows]
    exact congrArg (head :: ·) htail

/-- A list that was just made has the elements it was made of. -/
theorem items_newList (items : List Ref) (h : Heap) :
    (newList items h).2.items (newList items h).1 = items :=
  itemsUpTo_newList (.refl _) (length_lt_size_newList items h)

/-! ### Bindings in the innermost frame -/

namespace Frames

/-- What a name is bound to in the innermost frame. -/
def local? (fs : Frames) (key : String) : Option Ref :=
  fs.top.locals.get? key

/-- Binds several names in the innermost frame, one after the other. -/
def bindAll (fs : Frames) (bindings : List (String × Ref)) : Frames :=
  bindings.foldl (fun fs binding => fs.bind binding.1 binding.2) fs

variable {fs : Frames} {key other : String} {value : Ref} {bindings : List (String × Ref)}

theorem top_bind (fs : Frames) (key : String) (value : Ref) :
    (fs.bind key value).top = { fs.top with locals := fs.top.locals.insert key value } := by
  obtain ⟨calls, globals⟩ := fs
  cases calls <;> rfl

@[simp]
theorem local?_bind_self (fs : Frames) (key : String) (value : Ref) :
    (fs.bind key value).local? key = some value := by
  rw [local?, top_bind]
  exact Table.get?_insert_self ..

theorem local?_bind_of_ne (h : other ≠ key) : (fs.bind key value).local? other = fs.local? other := by
  rw [local?, top_bind]
  exact Table.get?_insert_of_ne _ _ h

theorem local?_bindAll_of_notMem (h : key ∉ bindings.map Prod.fst) :
    (fs.bindAll bindings).local? key = fs.local? key := by
  induction bindings generalizing fs with
  | nil => rfl
  | cons binding bindings ih =>
    obtain ⟨hne, hrest⟩ := List.ne_and_not_mem_of_not_mem_cons h
    exact (ih hrest).trans (local?_bind_of_ne hne)

/-- Among distinct names each has the value that it was bound to. -/
theorem local?_bindAll_of_mem (hnodup : (bindings.map Prod.fst).Nodup)
    (h : (key, value) ∈ bindings) : (fs.bindAll bindings).local? key = some value := by
  induction bindings generalizing fs with
  | nil => cases h
  | cons binding bindings ih =>
    rw [List.map_cons, List.nodup_cons] at hnodup
    rcases List.mem_cons.mp h with rfl | hrest
    · exact (local?_bindAll_of_notMem hnodup.1).trans (local?_bind_self ..)
    · exact ih hnodup.2 hrest

/-- Bindings leave all frames to their calls. -/
theorem afterList_bind (fs : Frames) (key : String) (value : Ref) :
    fs.AfterList (fs.bind key value) :=
  afterList_modifyTop fs fun _ => ⟨rfl, rfl, rfl⟩

theorem afterList_bindAll (fs : Frames) (bindings : List (String × Ref)) :
    fs.AfterList (fs.bindAll bindings) := by
  induction bindings generalizing fs with
  | nil => exact Std.Refl.refl _
  | cons binding bindings ih =>
    exact IsTrans.trans _ _ _ (afterList_bind fs binding.1 binding.2) (ih _)

end Frames

/-! ### Default lists -/

/-- One default list that was run: for which input, in which state, and what it came to. -/
structure DefaultRun where
  name : String
  default : Ref
  before : World
  value : Ref
  after : World

/-- The run left what a name is bound to in the innermost frame. -/
def DefaultRun.Spares (run : DefaultRun) (key : String) : Prop :=
  ∀ v, run.before.frames.local? key = some v → run.after.frames.local? key = some v

section

variable {re : Reenter} {pins : Pins} {call : Ref}

/-- The default lists of some inputs are run in order, and each input is bound to the value of its
list before the next list is run. -/
inductive Defaults (re : Reenter) (pins : Pins) :
    List (String × Ref) → World → List DefaultRun → World → Prop
  | nil {w} : Defaults re pins [] w [] w
  | cons {name default params w value w₁ runs w'} (hlist : re.list pins default w = .ok (value, w₁))
      (hdata : w₁.heap.isData value = true)
      (hrest : Defaults re pins params { w₁ with frames := w₁.frames.bind name value } runs w') :
      Defaults re pins ((name, default) :: params) w (⟨name, default, w, value, w₁⟩ :: runs) w'

/-- A default list has no value for its input, and this is what ends the call: the token it came to,
the error that it had no value, or that it has no result at all. -/
inductive Fails (re : Reenter) (pins : Pins) (call default : Ref) (w : World) :
    Except Halt (Ref × World) → Prop
  | token {t w₁} (hlist : re.list pins default w = .ok (t, w₁)) (hflow : w₁.heap.isFlow t = true) :
      Fails re pins call default w (.ok (t, w₁))
  | nothing {v w₁ r e w₂} (hlist : re.list pins default w = .ok (v, w₁))
      (hflow : w₁.heap.isFlow v = false) (hdata : w₁.heap.isData v = false)
      (hraises : w₁.Raises r e w₂) (hreports : w₂.Reports r ⟨.didntOutput,
        ErrorCode.didntOutput.format [(Value.datum default).shown w₁.heap,
          (Value.datum call).shown w₁.heap]⟩) :
      Fails re pins call default w (.ok (r, w₂))
  | halt {halt} (hlist : re.list pins default w = .error halt) :
      Fails re pins call default w (.error halt)

namespace Defaults

variable {params : List (String × Ref)} {w w' : World} {runs : List DefaultRun} {key : String}
  {v : Ref}

/-- The lists are those of the inputs, in order. -/
theorem map_eq (h : Defaults re pins params w runs w') :
    runs.map (fun run => (run.name, run.default)) = params := by
  induction h with
  | nil => rfl
  | cons _ _ _ ih => rw [List.map_cons, ih]

/-- A name is bound to what it was, if no list changed that. -/
theorem local?_of_spares (h : Defaults re pins params w runs w') (hkey : key ∉ params.map Prod.fst)
    (hspares : ∀ run ∈ runs, run.Spares key) (hw : w.frames.local? key = some v) :
    w'.frames.local? key = some v := by
  induction h with
  | nil => exact hw
  | cons _ _ _ ih =>
    obtain ⟨hne, hrest⟩ := List.ne_and_not_mem_of_not_mem_cons hkey
    obtain ⟨hspare, hspares⟩ := List.forall_mem_cons.mp hspares
    refine ih hrest hspares ?_
    exact (Frames.local?_bind_of_ne hne).trans (hspare v hw)

/-- An input is bound to the value of its list, if no later list changed that. -/
theorem local?_default (h : Defaults re pins params w runs w')
    (hnodup : (params.map Prod.fst).Nodup) {done later : List DefaultRun} {run : DefaultRun}
    (hruns : runs = done ++ run :: later) (hspares : ∀ other ∈ later, other.Spares run.name) :
    w'.frames.local? run.name = some run.value := by
  induction h generalizing done with
  | nil => cases done <;> cases hruns
  | cons _ _ hrest ih =>
    rw [List.map_cons, List.nodup_cons] at hnodup
    cases done with
    | nil =>
      cases hruns
      exact hrest.local?_of_spares hnodup.1 hspares (Frames.local?_bind_self ..)
    | cons other done =>
      rw [List.cons_append] at hruns
      exact ih hnodup.2 (List.cons.inj hruns).2

/-- The frames belong to the same calls all the time. -/
theorem afterList [hre : re.InPlace] (h : Defaults re pins params w runs w') :
    (∀ run ∈ runs, w.frames.AfterList run.before.frames) ∧ w.frames.AfterList w'.frames := by
  induction h with
  | nil => exact ⟨List.forall_mem_nil _, Std.Refl.refl _⟩
  | @cons name default params w value w₁ runs w' hlist _ _ ih =>
    have hran : w.frames.AfterList w₁.frames := (hre.list pins default).keeps hlist
    have hbound : w.frames.AfterList (w₁.frames.bind name value) :=
      IsTrans.trans _ _ _ hran (Frames.afterList_bind ..)
    refine ⟨List.forall_mem_cons.mpr ⟨Std.Refl.refl _, fun run hrun => ?_⟩, ?_⟩
    · exact IsTrans.trans _ _ _ hbound (ih.1 run hrun)
    · exact IsTrans.trans _ _ _ hbound ih.2

end Defaults

/-! ### Binding the inputs -/

theorem map_fst_zip_eq_take {α β : Type} (as : List α) (bs : List β) :
    (as.zip bs).map Prod.fst = as.take bs.length := by
  induction as generalizing bs with
  | nil => simp
  | cons a as ih =>
    cases bs with
    | nil => rfl
    | cons b bs => exact congrArg (a :: ·) (ih bs)

theorem zip_append_left {α β : Type} (as bs : List α) (cs : List β) :
    (as ++ bs).zip cs = as.zip cs ++ bs.zip (cs.drop as.length) := by
  induction as generalizing cs with
  | nil => rfl
  | cons a as ih =>
    cases cs with
    | nil => simp
    | cons c cs => exact congrArg ((a, c) :: ·) (ih cs)

/-- The names of the inputs that take one argument each, in order. -/
def Procedure.singles (p : Procedure) : List String :=
  p.required ++ p.optional.map Prod.fst

/-- The names of all inputs, in order. -/
def Procedure.inputs (p : Procedure) : List String :=
  p.singles ++ p.rest.toList

theorem bindRequired_eq {names : List String} {args : List Ref} {w : World}
    (h : names.length ≤ args.length) :
    bindRequired names args w =
      .ok (args.drop names.length, { w with frames := w.frames.bindAll (names.zip args) }) := by
  induction names generalizing args w with
  | nil => rfl
  | cons name names ih =>
    cases args with
    | nil => cases h
    | cons arg args =>
      rw [bindRequired, Run.modifyFrames_bind]
      exact ih (Nat.le_of_succ_le_succ h)

variable (re pins call) in
/-- The arguments that there are go to the first optional inputs, and the default lists of the others
are run until one has no value. -/
theorem bindOptional_cases (params : List (String × Ref)) (args : List Ref) (w : World) :
    let bound : World := { w with frames := w.frames.bindAll ((params.map Prod.fst).zip args) }
    (∃ runs w', Defaults re pins (params.drop args.length) bound runs w' ∧
      bindOptional re pins call params args w = .ok (.ok (args.drop params.length), w')) ∨
    ∃ done name default later runs w₁ result,
      params.drop args.length = done ++ (name, default) :: later ∧ Defaults re pins done bound runs w₁ ∧
      Fails re pins call default w₁ result ∧
      bindOptional re pins call params args w = result.map fun out => (.error out.1, out.2) := by
  induction params generalizing args w with
  | nil =>
    rw [List.drop_nil]
    exact .inl ⟨[], w, .nil, rfl⟩
  | cons param params ih =>
    obtain ⟨name, default⟩ := param
    cases args with
    | cons arg args =>
      rw [bindOptional, Run.modifyFrames_bind]
      exact ih args { w with frames := w.frames.bind name arg }
    | nil =>
      rw [bindOptional]
      -- the first list has no value, or it has one and the others follow
      cases hlist : re.list pins default w with
      | error halt =>
        refine .inr ⟨[], name, default, params, [], w, _, rfl, .nil, .halt hlist, ?_⟩
        simp only [bind, StateT.bind, hlist]
        rfl
      | ok out =>
        obtain ⟨v, w₁⟩ := out
        rw [Run.bind_of_ok hlist, Run.heap_bind]
        cases hflow : (w₁.heap.get v).isFlow with
        | true => exact .inr ⟨[], name, default, params, [], w, _, rfl, .nil, .token hlist hflow, rfl⟩
        | false =>
          cases hdata : (w₁.heap.get v).isData with
          | false =>
            obtain ⟨r, w₂, e, hraise, hraises, hreports⟩ :=
              exists_raises w₁ .didntOutput [default, call]
            refine .inr ⟨[], name, default, params, [], w, _, rfl, .nil,
              .nothing hlist hflow hdata hraises hreports, ?_⟩
            simp only [Bool.false_eq_true, if_false]
            rw [raiseDidntOutput, Run.bind_of_ok hraise]
            rfl
          | true =>
            simp only [Bool.false_eq_true, if_false, if_true]
            rw [Run.modifyFrames_bind]
            rcases ih [] { w₁ with frames := w₁.frames.bind name v } with
              ⟨runs, w', hdefaults, heq⟩ | ⟨done, name', default', later, runs, w', result, hparams,
                hdefaults, hfails, heq⟩
            · rw [List.zip_nil_right] at hdefaults
              exact .inl ⟨_, w', .cons hlist hdata hdefaults, heq.trans (by simp)⟩
            · rw [List.zip_nil_right] at hdefaults
              refine .inr ⟨(name, default) :: done, name', default', later, _, w', result, ?_,
                .cons hlist hdata hdefaults, hfails, heq⟩
              rw [List.cons_append, ← hparams]
              rfl

end

/-! ### One activation -/

/-- The state in which a call goes on that has its frame, and whose inputs are bound to the arguments
that there are. -/
def Procedure.entered (p : Procedure) (procedure call : Ref) (args : List Ref) (w : World) : World :=
  { w with frames := (w.frames.push procedure call).bindAll (p.singles.zip args) }

/-- The rest input, if there is one, is bound to a new list of the arguments that are left. -/
def Procedure.withRest (p : Procedure) (args : List Ref) (w : World) : World :=
  match p.rest with
  | none => w
  | some name =>
    { w with heap := (newList args w.heap).2, frames := w.frames.bind name (newList args w.heap).1 }

/-- What follows when the inputs are bound: the body is compiled and run. -/
def startBody (re : Reenter) (fuel : Nat) (pins : Pins) (procedure : Ref) (p : Procedure) :
    Run Ref := do
  match ← (compileSource pins p.body (some procedure)).run with
  | .error failure => raiseCompileFailure p.body failure
  | .ok entry =>
    Run.modifyFrames fun fs => fs.modifyTop fun frame => { frame with line := some p.body }
    runJumps re fuel pins procedure entry.code fuel 0

/-- The end of an activation: its frame is gone. -/
def leaveFrame (result : Except Halt (Ref × World)) : Except Halt (Ref × World) :=
  result.map fun out => (out.1, { out.2 with frames := out.2.frames.pop })

/-- A call is refused with an error about it: but for the error all is as it was, so no frame was
pushed and nothing was run. -/
def World.Refuses (w : World) (code : ErrorCode) (call : Ref) (result : Except Halt (Ref × World)) :
    Prop :=
  ∃ r w' e, result = .ok (r, w') ∧ w.Raises r e w' ∧
    w'.Reports r ⟨code, code.format [(Value.datum call).shown w.heap]⟩

/-- A moment at which the frame of a call is the innermost one, on top of the frames of an earlier
moment. -/
structure World.InFrameOf (w : World) (procedure call : Ref) (w' : World) : Prop where
  depth_eq : w'.frames.depth = w.frames.depth + 1
  procedure_eq : w'.frames.top.procedure = some procedure
  node_eq : w'.frames.top.node = some call

/-- The inputs of a call in the state `w` are bound: `runs` are the default lists that were run, and
the body starts in the state `w'`. -/
structure Procedure.Binds (p : Procedure) (re : Reenter) (pins : Pins) (procedure call : Ref)
    (args : List Ref) (w : World) (runs : List DefaultRun) (w' : World) : Prop where
  /-- Exactly the default lists of inputs without an argument are run, in order. The first is run when
  all inputs with an argument are bound, and each when the input before it is bound. -/
  fills : ∃ w₁, Defaults re (.refs (args.drop p.required.length) :: pins)
      (p.optional.drop (args.length - p.required.length)) (p.entered procedure call args w) runs w₁ ∧
    w' = p.withRest (args.drop (p.required.length + p.optional.length)) w₁
  /-- They are run in the new frame, and so is the body. -/
  inFrame : (∀ run ∈ runs, w.InFrameOf procedure call run.before) ∧ w.InFrameOf procedure call w'
  /-- An input with an argument has it as its value. -/
  argument : ∀ (i : Nat) name arg, p.singles[i]? = some name → args[i]? = some arg →
    (∀ run ∈ runs, run.Spares name) → w'.frames.local? name = some arg
  /-- An input without one has the value of its default list. -/
  default : ∀ done run later, runs = done ++ run :: later → (∀ other ∈ later, other.Spares run.name) →
    w'.frames.local? run.name = some run.value
  /-- The rest input has the list of the other arguments. -/
  rest : ∀ name, p.rest = some name → ∃ list, w'.frames.local? name = some list ∧
    w'.heap.items list = args.drop (p.required.length + p.optional.length)
  /-- The body is compiled without a change of any frame. -/
  compile : ∀ compiled w₁, (compileSource pins p.body (some procedure)).run w' = .ok (compiled, w₁) →
    w₁.frames = w'.frames

section

variable {re : Reenter} {fuel n : Nat} {pins : Pins} {procedure call : Ref} {p : Procedure}
  {args : List Ref} {w w₁ : World}

/-- The new frame is the innermost one as long as all frames belong to the same calls. -/
theorem World.InFrameOf.of_afterList {w' : World}
    (h : (p.entered procedure call args w).frames.AfterList w'.frames) :
    w.InFrameOf procedure call w' := by
  have hpushed : (w.frames.push procedure call).AfterList w'.frames :=
    IsTrans.trans _ _ _ (Frames.afterList_bindAll _ _) h
  obtain ⟨frame, rest, hframe, -, heq⟩ := List.forall₂_cons_left_iff.mp hpushed.calls
  refine ⟨hpushed.depth_eq, ?_, ?_⟩
  · rw [Frames.top, heq]
    exact hframe.procedure
  · rw [Frames.top, heq]
    exact hframe.node

theorem Run.bind_of_error {α β : Type} {m : Run α} {w : World} {halt : Halt} (h : m w = .error halt)
    (f : α → Run β) : (m >>= f) w = .error halt := by
  show (m w >>= fun out => f out.1 out.2) = _
  rw [h]
  rfl

theorem bindRest_eq (p : Procedure) (args : List Ref) (w : World) :
    bindRest p.rest args w = .ok ((), p.withRest args w) := by
  unfold bindRest Procedure.withRest
  cases p.rest <;> rfl

variable (re fuel pins call) in
/-- An activation with as many arguments as are taken is what becomes of its body in a frame of its
own. -/
theorem invoke_eq_runBody (hp : w.heap.procedure? procedure = some p)
    (hleast : p.required.length ≤ args.length)
    (hmost : p.rest = none → args.length ≤ p.required.length + p.optional.length) :
    invoke re fuel pins procedure call args w = leaveFrame
      (runBody re fuel pins procedure call p args
        { w with frames := w.frames.push procedure call }) := by
  have hfits : p.maxInputs.any (· < args.length) = false := by
    cases hrest : p.rest with
    | none => simpa [Procedure.maxInputs, hrest] using hmost hrest
    | some name => simp [Procedure.maxInputs, hrest]
  have hfew : ¬ args.length < p.minInputs := Nat.not_lt.mpr hleast
  rw [invoke, Run.heap_bind, hp]
  dsimp only
  rw [if_neg hfew, if_neg (by simp [hfits]), Run.modifyFrames_bind]
  cases hbody : runBody re fuel pins procedure call p args
      { w with frames := w.frames.push procedure call } with
  | error halt => exact Run.bind_of_error hbody _
  | ok out => rw [Run.bind_of_ok hbody]; rfl

variable (re fuel pins procedure call w) in
/-- A body is run when all inputs are bound, and else the call is over. -/
theorem runBody_cases (hleast : p.required.length ≤ args.length) :
    let w₀ := p.entered procedure call args w
    let held : Pins := .refs (args.drop p.required.length) :: pins
    let missing := p.optional.drop (args.length - p.required.length)
    let result := runBody re fuel pins procedure call p args
      { w with frames := w.frames.push procedure call }
    (∃ runs w₁, Defaults re held missing w₀ runs w₁ ∧ result = startBody re fuel pins procedure p
      (p.withRest (args.drop (p.required.length + p.optional.length)) w₁)) ∨
    ∃ done name default later runs w₁, missing = done ++ (name, default) :: later ∧
      Defaults re held done w₀ runs w₁ ∧ Fails re held call default w₁ result := by
  intro w₀ held missing result
  let pushed : World := { w with frames := w.frames.push procedure call }
  let required : World := { pushed with frames := pushed.frames.bindAll (p.required.zip args) }
  -- required inputs first, then the optional ones that are given: the frame both leave is `w₀`
  have hentered : w₀ = { required with
      frames := required.frames.bindAll
        ((p.optional.map Prod.fst).zip (args.drop p.required.length)) } := by
    have hzip : p.singles.zip args = p.required.zip args ++
        (p.optional.map Prod.fst).zip (args.drop p.required.length) := zip_append_left ..
    simp only [w₀, Procedure.entered, hzip, Frames.bindAll, List.foldl_append, required, pushed]
  have hrequired : bindRequired p.required args pushed =
      .ok (args.drop p.required.length, required) := bindRequired_eq hleast
  have hcases := bindOptional_cases re held call p.optional
    (args.drop p.required.length) required
  rw [List.length_drop, List.drop_drop, ← hentered] at hcases
  rcases hcases with ⟨runs, w₁, hdefaults, hbound⟩ |
    ⟨done, name, default, later, runs, w₁, failed, hmissing, hdefaults, hfails, hbound⟩
  · refine .inl ⟨runs, w₁, hdefaults, ?_⟩
    exact (Run.bind_of_ok hrequired _).trans
      ((Run.bind_of_ok hbound _).trans (Run.bind_of_ok (bindRest_eq ..) _))
  · refine .inr ⟨done, name, default, later, runs, w₁, hmissing, hdefaults, ?_⟩
    have hover : result = failed := by
      refine (Run.bind_of_ok hrequired _).trans ?_
      cases failed with
      | error halt => exact Run.bind_of_error hbound _
      | ok out => exact Run.bind_of_ok hbound _
    rw [hover]
    exact hfails

/-- The values of the inputs, when the default lists were run and the rest input is bound. -/
theorem Procedure.binds_of_defaults (hnames : p.inputs.Nodup) {runs : List DefaultRun}
    (hleast : p.required.length ≤ args.length)
    (hdefaults : Defaults (engine n) (.refs (args.drop p.required.length) :: pins)
      (p.optional.drop (args.length - p.required.length)) (p.entered procedure call args w) runs w₁) :
    p.Binds (engine n) pins procedure call args w runs
      (p.withRest (args.drop (p.required.length + p.optional.length)) w₁) := by
  obtain ⟨hsingles, -, hdisjoint⟩ := List.nodup_append.mp hnames
  -- the inputs without an argument are the last ones
  have hmissing : (p.optional.drop (args.length - p.required.length)).map Prod.fst =
      p.singles.drop args.length := by
    rw [Procedure.singles, List.drop_append, List.drop_eq_nil_of_le hleast, List.nil_append,
      List.map_drop]
  -- the rest input has a name of its own
  have hrest : ∀ name ∈ p.singles, ∀ v, w₁.frames.local? name = some v →
      (p.withRest (args.drop (p.required.length + p.optional.length)) w₁).frames.local? name =
        some v := by
    intro name hname v hv
    unfold withRest
    split
    · exact hv
    · next other hother =>
      have hne : name ≠ other := hdisjoint name hname other (by simp [hother])
      exact (Frames.local?_bind_of_ne hne).trans hv
  obtain ⟨hbefore, hafter⟩ := hdefaults.afterList
  have hlast : (p.entered procedure call args w).frames.AfterList
      (p.withRest (args.drop (p.required.length + p.optional.length)) w₁).frames := by
    unfold withRest
    split
    · exact hafter
    · exact IsTrans.trans _ _ _ hafter (Frames.afterList_bind ..)
  refine ⟨⟨w₁, hdefaults, rfl⟩, ⟨fun run hrun => .of_afterList (hbefore run hrun),
    .of_afterList hlast⟩, ?_, ?_, ?_, fun compiled w₂ h => (quiet_compileSource h).1.frames⟩
  · intro i name arg hname harg hspares
    have hmem : (name, arg) ∈ p.singles.zip args :=
      List.mem_of_getElem? (List.getElem?_zip_eq_some (z := (name, arg)).mpr ⟨hname, harg⟩)
    have hgiven : name ∈ p.singles.take args.length := by
      rw [← map_fst_zip_eq_take]
      exact List.mem_map_of_mem hmem
    have hdistinct : ((p.singles.zip args).map Prod.fst).Nodup := by
      rw [map_fst_zip_eq_take]
      exact hsingles.sublist (List.take_sublist ..)
    have hlater : name ∉ (p.optional.drop (args.length - p.required.length)).map Prod.fst := by
      rw [hmissing]
      exact List.disjoint_take_drop hsingles le_rfl hgiven
    exact hrest name (List.mem_of_getElem? hname) arg
      (hdefaults.local?_of_spares hlater hspares (Frames.local?_bindAll_of_mem hdistinct hmem))
  · intro done run later hruns hspares
    have hmem : run.name ∈ p.singles.drop args.length := by
      rw [← hmissing, ← hdefaults.map_eq, hruns]
      simp
    refine hrest run.name (List.mem_of_mem_drop hmem) run.value
      (hdefaults.local?_default ?_ hruns hspares)
    rw [hmissing]
    exact hsingles.sublist (List.drop_sublist ..)
  · intro name hname
    simp only [withRest, hname]
    exact ⟨_, Frames.local?_bind_self .., items_newList ..⟩

/-- **Inputs are bound without loss.** A call with fewer arguments than required inputs, or with more
than all inputs take, is refused, and nothing is run. In all other cases either the inputs are bound
and the body starts with them, or the default list of one has no value and its outcome is that of the
call, whose body is not run. -/
theorem invoke_inputs (n fuel : Nat) (pins : Pins) (call : Ref) (args : List Ref)
    (hp : w.heap.procedure? procedure = some p) (hnames : p.inputs.Nodup) :
    let held : Pins := .refs (args.drop p.required.length) :: pins
    let result := invoke (engine n) fuel pins procedure call args w
    (args.length < p.required.length → w.Refuses .notEnoughInputs call result) ∧
    (p.rest = none → p.required.length + p.optional.length < args.length →
      w.Refuses .tooManyInputs call result) ∧
    (p.required.length ≤ args.length →
      (p.rest = none → args.length ≤ p.required.length + p.optional.length) →
      (∃ runs w₁, p.Binds (engine n) pins procedure call args w runs w₁ ∧
        result = leaveFrame (startBody (engine n) fuel pins procedure p w₁)) ∨
      ∃ done name default later runs w₁ failed,
        p.optional.drop (args.length - p.required.length) = done ++ (name, default) :: later ∧
        Defaults (engine n) held done (p.entered procedure call args w) runs w₁ ∧
        Fails (engine n) held call default w₁ failed ∧ result = leaveFrame failed) := by
  intro held result
  have hinvoke : result = (if args.length < p.minInputs then raise .notEnoughInputs [call]
      else if p.maxInputs.any (· < args.length) then raise .tooManyInputs [call]
      else do
        Run.modifyFrames fun fs => fs.push procedure call
        let r ← runBody (engine n) fuel pins procedure call p args
        Run.modifyFrames Frames.pop
        return r : Run Ref) w := by
    simp only [result, invoke]
    rw [Run.heap_bind, hp]
  refine ⟨fun hfew => ?_, fun hrest hmany => ?_, fun hleast hmost => ?_⟩
  · obtain ⟨r, w', e, hraise, hraises, hreports⟩ := exists_raises w .notEnoughInputs [call]
    rw [if_pos (show args.length < p.minInputs from hfew)] at hinvoke
    exact ⟨r, w', e, hinvoke.trans hraise, hraises, hreports⟩
  · obtain ⟨r, w', e, hraise, hraises, hreports⟩ := exists_raises w .tooManyInputs [call]
    have hfew : ¬ args.length < p.minInputs := by
      simp only [Procedure.minInputs]
      omega
    have hover : p.maxInputs.any (· < args.length) = true := by
      simpa [Procedure.maxInputs, hrest] using hmany
    rw [if_neg hfew, if_pos hover] at hinvoke
    exact ⟨r, w', e, hinvoke.trans hraise, hraises, hreports⟩
  · have hbody := invoke_eq_runBody (engine n) fuel pins call hp hleast hmost
    -- either all defaults come to data, or the first that does not ends the call
    rcases runBody_cases (engine n) fuel pins procedure call w hleast with
      ⟨runs, w₁, hdefaults, hstart⟩ |
        ⟨done, name, default, later, runs, w₁, hmissing, hdefaults, hfails⟩
    · exact .inl ⟨runs, _, Procedure.binds_of_defaults hnames hleast hdefaults, hbody.trans (hstart ▸ rfl)⟩
    · exact .inr ⟨done, name, default, later, runs, w₁, _, hmissing, hdefaults, hfails, hbody⟩

end

namespace Bound

/-- The head of the node that reads `a`. -/
def readHead : NodeHead := ⟨⟨7⟩, 7, ⟨4⟩, .valueOf, .datum⟩

/-- The literal with the given number. -/
def literal (index value : Nat) : Node :=
  .call ⟨⟨index⟩, index, ⟨5⟩, .literal, .datum⟩ [.datum ⟨value⟩]

/-- The head of `make "a "nine`. -/
def makeHead : NodeHead := ⟨⟨11⟩, 11, ⟨6⟩, .make, .nothing⟩

/-- A procedure with a required input, an optional one and a rest input. -/
def p (default : Nat) : Procedure where
  name := "P"
  required := ["A"]
  optional := [("B", ⟨default⟩)]
  rest := some "MORE"
  defaultInputs := 1
  body := ⟨17⟩
  labels := []

/-- The default list of one procedure reads the input before, and that of the other assigns to it. -/
def heap : Heap where
  objects := #[.nothing, .word (.text "one"), .word (.text "nine"), .word (.text "a"),
    .word (.text "valueOf"), .word (.text "literal"), .word (.text "make"),
    .node readHead [.datum ⟨3⟩], .list ⟨8, none, 1, some [[.call readHead [.datum ⟨3⟩]]]⟩,
    .node ⟨⟨9⟩, 9, ⟨5⟩, .literal, .datum⟩ [.datum ⟨3⟩],
    .node ⟨⟨10⟩, 10, ⟨5⟩, .literal, .datum⟩ [.datum ⟨2⟩],
    .node makeHead [literal 9 3, literal 10 2],
    .list ⟨12, none, 1, some [[.call makeHead [literal 9 3, literal 10 2], literal 10 2]]⟩,
    .word (.text "p"), .node ⟨⟨14⟩, 14, ⟨13⟩, .execProcedure, .datumOrNothing⟩ [],
    .procedure (p 8), .procedure (p 12), .list ⟨17, none, 1, some []⟩]

/-- Nothing is running. -/
def world : World where
  heap := heap

/-- The state in which the default list is run if there is one argument. -/
def entered (procedure default : Nat) : World :=
  (p default).entered ⟨procedure⟩ ⟨14⟩ [⟨1⟩] world

/-- A call of the first procedure with one argument: the body starts with this argument as the values
of both inputs, and with an empty list as that of the rest input. -/
theorem binds_reading : ∃ runs w₁, (p 8).Binds (engine 9) [] ⟨15⟩ ⟨14⟩ [⟨1⟩] world runs w₁ ∧
    invoke (engine 9) 9 [] ⟨15⟩ ⟨14⟩ [⟨1⟩] world =
      leaveFrame (startBody (engine 9) 9 [] ⟨15⟩ (p 8) w₁) ∧
    w₁.frames.local? "A" = some ⟨1⟩ ∧ w₁.frames.local? "B" = some ⟨1⟩ ∧
    ∃ list, w₁.frames.local? "MORE" = some list ∧ w₁.heap.items list = [] := by
  have hlist := eq_ok_ran (x := (engine 9).list [.refs []] ⟨8⟩ (entered 15 8)) (by decide +kernel)
  have hvalue : (ran ((engine 9).list [.refs []] ⟨8⟩ (entered 15 8))).1 = ⟨1⟩ := by decide +kernel
  have hflow : (ran ((engine 9).list [.refs []] ⟨8⟩ (entered 15 8))).2.heap.isFlow ⟨1⟩ = false := by
    decide +kernel
  have hdata : (ran ((engine 9).list [.refs []] ⟨8⟩ (entered 15 8))).2.heap.isData ⟨1⟩ = true := by
    decide +kernel
  have hlocal : (ran ((engine 9).list [.refs []] ⟨8⟩ (entered 15 8))).2.frames.local? "A" =
      some ⟨1⟩ := by decide +kernel
  generalize ran ((engine 9).list [.refs []] ⟨8⟩ (entered 15 8)) = out at hlist hvalue hflow hdata hlocal
  obtain ⟨value, after⟩ := out
  obtain rfl : value = ⟨1⟩ := hvalue
  have hp : world.heap.procedure? ⟨15⟩ = some (p 8) := rfl
  rcases (invoke_inputs 9 9 [] ⟨14⟩ [⟨1⟩] hp (by decide)).2.2 (by decide) (by decide) with
    ⟨runs, w₁, hbinds, hstart⟩ |
      ⟨done, name, default, later, runs, w₁, failed, hsplit, hdefaults, hfails, -⟩
  · refine ⟨runs, w₁, hbinds, hstart, ?_⟩
    obtain ⟨w₂, hdefaults, -⟩ := hbinds.fills
    -- one list was run, and it left `a` alone
    cases hdefaults with
    | cons hran _ hrest =>
      cases hrest
      cases hlist.symm.trans hran
      refine ⟨hbinds.argument 0 "A" ⟨1⟩ rfl rfl fun run hrun => ?_,
        hbinds.default [] _ [] rfl (List.forall_mem_nil _), hbinds.rest "MORE" rfl⟩
      obtain rfl := List.mem_singleton.mp hrun
      intro v hv
      have hbefore : (entered 15 8).frames.local? "A" = some ⟨1⟩ := by decide +kernel
      exact hlocal.trans (hbefore.symm.trans hv)
  · -- the only list has a value
    cases done with
    | cons _ done => cases done <;> cases hsplit
    | nil =>
      cases hsplit
      cases hdefaults
      cases hfails with
      | token hran hflow' =>
        cases hlist.symm.trans hran
        cases hflow.symm.trans hflow'
      | nothing hran _ hdata' =>
        cases hlist.symm.trans hran
        cases hdata.symm.trans hdata'
      | halt hran => cases hlist.symm.trans hran

/-- Whether the body of the other procedure starts with the word of its default list as the value of
the required input. -/
def loses : Bool :=
  match enterBody (engine 9) [] ⟨16⟩ ⟨14⟩ (p 12) [⟨1⟩]
      { world with frames := world.frames.push ⟨16⟩ ⟨14⟩ } with
  | .ok (.ok _, w₁) => w₁.frames.local? "A" = some ⟨2⟩
  | _ => false

theorem loses_eq_true : loses = true := by
  decide +kernel

/-- The required input does not have the argument as its value when the body of the other procedure
starts. -/
theorem argument_lost : world.heap.procedure? ⟨16⟩ = some (p 12) ∧ (p 12).inputs.Nodup ∧
    ∃ code w₁, enterBody (engine 9) [] ⟨16⟩ ⟨14⟩ (p 12) [⟨1⟩]
      { world with frames := world.frames.push ⟨16⟩ ⟨14⟩ } = .ok (.ok code, w₁) ∧
    (p 12).required[0]? = some "A" ∧ w₁.frames.local? "A" ≠ some ⟨1⟩ := by
  refine ⟨rfl, by decide, ?_⟩
  have hloses := loses_eq_true
  rw [loses] at hloses
  split at hloses
  · next code w₁ henter =>
    refine ⟨code, w₁, henter, rfl, ?_⟩
    rw [of_decide_eq_true hloses]
    decide
  · cases hloses

end Bound

end LogoEngine
