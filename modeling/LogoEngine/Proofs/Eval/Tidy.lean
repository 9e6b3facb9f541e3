import LogoEngine.Proofs.Eval.Quiet
import LogoEngine.Proofs.Eval.Tokens
import LogoEngine.Proofs.Heap.Tidy

/-!
# Tidy evaluators

An evaluator is **tidy** if its heap is, and if variables hold data or nothing, the running lines and
the replies to come are data, and all code was lowered from parses with literals that are data. What
compiled code asks the evaluator to do leaves it tidy, if whatever is to be stored, run or passed on
is data (`Helper.Fit`).

Main statement: `tidy_callHelper`.
-/

namespace LogoEngine

variable {h h' : Heap} {w w' : World}

/-! ### Frames -/

/-- Variables hold data or nothing, and the call and the running line of a frame have names. -/
structure Frame.Tidy (h : Heap) (f : Frame) : Prop where
  locals : ∀ key r, f.locals.get? key = some r → h.isData r = true ∨ r = Ref.nothing
  node : ∀ r ∈ f.node, h.Named r
  line : ∀ r ∈ f.line, h.isData r = true

structure Frames.Tidy (h : Heap) (fs : Frames) : Prop where
  calls : ∀ f ∈ fs.calls, f.Tidy h
  globals : fs.globals.Tidy h

theorem Frame.Tidy.mono {f : Frame} (hf : f.Tidy h) (hh : h.Extends h') : f.Tidy h' :=
  ⟨fun key r hr => (hf.locals key r hr).imp_left hh.isData, fun r hr => hh.named (hf.node r hr),
    fun r hr => hh.isData (hf.line r hr)⟩

theorem Frame.Tidy.insert {f : Frame} (hf : f.Tidy h) (key : String) {value : Ref}
    (hvalue : h.isData value = true ∨ value = Ref.nothing) :
    Frame.Tidy h { f with locals := f.locals.insert key value } := by
  refine ⟨fun other r hr => ?_, hf.node, hf.line⟩
  by_cases hother : other = key
  · rw [hother, Table.get?_insert_self] at hr
    cases hr
    exact hvalue
  · rw [Table.get?_insert_of_ne _ _ hother] at hr
    exact hf.locals other r hr

namespace Frames.Tidy

variable {fs : Frames}

theorem mono (hfs : fs.Tidy h) (hh : h.Extends h') : fs.Tidy h' :=
  ⟨fun f hf => (hfs.calls f hf).mono hh, hfs.globals.mono hh⟩

theorem top (hfs : fs.Tidy h) : fs.top.Tidy h := by
  unfold Frames.top
  cases hcalls : fs.calls with
  | nil => exact hfs.globals
  | cons frame rest => exact hfs.calls frame (hcalls ▸ List.mem_cons_self)

theorem modifyTop (hfs : fs.Tidy h) {f : Frame → Frame}
    (hf : ∀ frame, frame.Tidy h → (f frame).Tidy h) : (fs.modifyTop f).Tidy h := by
  unfold Frames.modifyTop
  split
  · exact ⟨hfs.calls, hf _ hfs.globals⟩
  · next frame rest heq =>
    have hcalls := hfs.calls
    rw [heq, List.forall_mem_cons] at hcalls
    exact ⟨List.forall_mem_cons.mpr ⟨hf _ hcalls.1, hcalls.2⟩, hfs.globals⟩

theorem bind (hfs : fs.Tidy h) (key : String) {value : Ref}
    (hvalue : h.isData value = true ∨ value = Ref.nothing) : (fs.bind key value).Tidy h :=
  hfs.modifyTop fun _ hframe => hframe.insert key hvalue

theorem assign? {calls calls' : List Frame} {key : String} {value : Ref}
    (hcalls : ∀ f ∈ calls, f.Tidy h) (hvalue : h.isData value = true ∨ value = Ref.nothing)
    (hassign : Frames.assign? key value calls = some calls') : ∀ f ∈ calls', f.Tidy h := by
  induction calls generalizing calls' with
  | nil => cases hassign
  | cons frame rest ih =>
    rw [List.forall_mem_cons] at hcalls
    unfold Frames.assign? at hassign
    split at hassign
    · cases hassign
      exact List.forall_mem_cons.mpr ⟨hcalls.1.insert key hvalue, hcalls.2⟩
    · obtain ⟨rest', hrest, rfl⟩ := Option.map_eq_some_iff.mp hassign
      exact List.forall_mem_cons.mpr ⟨hcalls.1, ih hcalls.2 hrest⟩

theorem set (hfs : fs.Tidy h) (key : String) {value : Ref}
    (hvalue : h.isData value = true ∨ value = Ref.nothing) : (fs.set key value).Tidy h := by
  unfold Frames.set
  split
  · next hassign => exact ⟨assign? hfs.calls hvalue hassign, hfs.globals⟩
  · exact ⟨hfs.calls, hfs.globals.insert key hvalue⟩

theorem push (hfs : fs.Tidy h) (procedure : Ref) {call : Ref} (hcall : h.Named call) :
    (fs.push procedure call).Tidy h :=
  ⟨List.forall_mem_cons.mpr ⟨⟨by simp [Table.get?], by simpa using hcall, by simp⟩, hfs.calls⟩,
    hfs.globals⟩

theorem pop (hfs : fs.Tidy h) : fs.pop.Tidy h :=
  ⟨fun f hf => hfs.calls f (List.mem_of_mem_tail hf), hfs.globals⟩

theorem get? (hfs : fs.Tidy h) {key : String} {r : Ref} (hr : fs.get? key = some r) :
    h.isData r = true ∨ r = Ref.nothing := by
  have hlookup : ∀ calls : List Frame, (∀ f ∈ calls, f.Tidy h) →
      Frames.lookup key calls = some r → h.isData r = true ∨ r = Ref.nothing := by
    intro calls hcalls hr
    induction calls with
    | nil => cases hr
    | cons frame rest ih =>
      rw [List.forall_mem_cons] at hcalls
      unfold Frames.lookup at hr
      split at hr
      · next hlocal =>
        cases hr
        exact hcalls.1.locals key r hlocal
      · exact ih hcalls.2 hr
  unfold Frames.get? at hr
  split at hr
  · next hcalls =>
    cases hr
    exact hlookup fs.calls hfs.calls hcalls
  · exact hfs.globals.locals key r hr

end Frames.Tidy

/-! ### Evaluators -/

theorem Sketch.Makes.mono {kept : Table Ref} {role : Role} {sketch : Sketch}
    (hsketch : sketch.Makes h kept role) (hh : h.Extends h') : sketch.Makes h' kept role := by
  induction hsketch with
  | text s => exact .text s
  | number x => exact .number x
  | truth b => exact .truth b
  | list _ ih => exact .list ih
  | array origin _ ih => exact .array origin ih
  | code _ ih => exact .code ih
  | codeAs _ _ ihgroups ihitems => exact .codeAs ihgroups ihitems
  | kept hname hr => exact .kept hname (hr.mono hh)
  | literal _ ih => exact .literal ih
  | valueOf subject => exact .valueOf subject
  | call name _ ih => exact .call name ih
  | procedureCall name _ ih => exact .procedureCall name ih
  | primitive hrow _ ih => exact .primitive hrow ih
  | procedure name required optional rest defaultInputs _ _ ihbody ihdefaults =>
    exact .procedure name required optional rest defaultInputs ihbody ihdefaults

/-- The replies to come are data, and the parses known are of nodes with literals that are. -/
structure Host.Tidy (h : Heap) (host : Host) : Prop where
  replies : ∀ r, some r ∈ host.replies → h.isData r = true
  parses : ∀ source groups, host.parses.get? source = some groups →
    ∀ group ∈ groups, ∀ node ∈ group, node.Makes h host.kept .node

theorem Host.Tidy.mono {host : Host} (hhost : host.Tidy h) (hh : h.Extends h') : host.Tidy h' :=
  ⟨fun r hr => hh.isData (hhost.replies r hr), fun source groups hgroups group hgroup node hnode =>
    (hhost.parses source groups hgroups group hgroup node hnode).mono hh⟩

/-- Code that a parse with literals that are data was lowered and linked to. -/
def Linked.Tidy (h : Heap) (code : Linked) : Prop :=
  ∃ h₀ parse, h₀.Extends h ∧ Parse.Tidy h₀ parse ∧ code.Renders h₀ parse

theorem Linked.Tidy.mono {code : Linked} (hcode : code.Tidy h) (hh : h.Extends h') :
    code.Tidy h' := by
  obtain ⟨h₀, parse, hext, hparse, hrenders⟩ := hcode
  exact ⟨h₀, parse, hext.trans hh, hparse, hrenders⟩

/-- Nothing but data stands where data belong. -/
structure World.Tidy (w : World) : Prop where
  heap : w.heap.Tidy
  frames : w.frames.Tidy w.heap
  code : ∀ e ∈ w.cache.entries, e.code.code.Tidy w.heap
  host : w.host.Tidy w.heap

/-- An evaluator that is tidy after something if it was before. -/
def World.StaysTidy (w w' : World) : Prop :=
  w.Tidy → w'.Tidy

instance : IsPreorder World World.StaysTidy where
  refl _ hw := hw
  trans _ _ _ h h' hw := h' (h hw)

/-- Objects were made, and whatever does not matter may have changed. -/
theorem World.Tidy.later (hw : w.Tidy) (hheap : w'.heap.Tidy) (hh : w.heap.Extends w'.heap)
    (hframes : w'.frames = w.frames) (hcache : w'.cache = w.cache) (hhost : w'.host = w.host) :
    w'.Tidy :=
  ⟨hheap, hframes ▸ hw.frames.mono hh, hcache ▸ fun e he => (hw.code e he).mono hh,
    hhost ▸ hw.host.mono hh⟩

/-! ### Elementary computations -/

/-- Making something that refers to nothing. -/
class Making.Neat {α : Type} (m : Making α) : Prop where
  tidies : ∀ {h : Heap}, h.Tidy → m.Tidies h fun _ _ => True

instance (s : String) : Making.Neat (newText s) :=
  ⟨fun ht => (Making.Tidies.newText ht s).mono fun _ _ _ _ _ => trivial⟩
instance (x : Float) : Making.Neat (newNumber x) :=
  ⟨fun ht => (Making.Tidies.newWord ht _).mono fun _ _ _ _ _ => trivial⟩
instance (b : Bool) : Making.Neat (newTruth b) :=
  ⟨fun ht => (Making.Tidies.newWord ht _).mono fun _ _ _ _ _ => trivial⟩
instance : Making.Neat newEmpty :=
  ⟨fun ht => (Making.Tidies.newEmpty ht).mono fun _ _ _ _ _ => trivial⟩
instance (source tag : Ref) : Making.Neat (newObject (.goto source tag)) :=
  ⟨fun ht => (Making.Tidies.newObject ht (o := .goto source tag) trivial).mono
    fun _ _ _ _ _ => trivial⟩

theorem World.Tidy.making {α : Type} {m : Making α} {post : α → Heap → Prop} (hw : w.Tidy)
    (hm : m.Tidies w.heap post) {a : α} (h : Run.making m w = .ok (a, w')) :
    w'.Tidy ∧ post a w'.heap := by
  cases h
  exact ⟨hw.later hm.tidy hm.later rfl rfl rfl, hm.post⟩

instance {α : Type} (m : Making α) [hm : Making.Neat m] :
    Run.Keeps World.StaysTidy (Run.making m) :=
  ⟨fun h hw => (hw.making (hm.tidies hw.heap) h).1⟩

/-- A host that is tidy after something if it was before. -/
theorem Run.keeps_withHost {α : Type} {f : Host → α × Host}
    (hf : ∀ h host, host.Tidy h → (f host).2.Tidy h) :
    Run.Keeps World.StaysTidy (Run.withHost f) :=
  ⟨fun hrun hw => by cases hrun; exact ⟨hw.heap, hw.frames, hw.code, hf _ _ hw.host⟩⟩

instance (s : String) : Run.Keeps World.StaysTidy (Run.write s) :=
  Run.keeps_withHost fun _ _ hhost => ⟨hhost.replies, hhost.parses⟩

theorem Host.Tidy.moveTurtle {host : Host} (hhost : host.Tidy h) (name : String)
    (args : List Float) (move? : Canvas → Option Canvas) :
    (host.moveTurtle name args move?).2.Tidy h := by
  unfold Host.moveTurtle
  split
  · exact hhost
  · dsimp only
    split <;> exact ⟨hhost.replies, hhost.parses⟩

instance (op : TurtleOp) (args : List Float) :
    Run.Keeps World.StaysTidy (Run.withHost fun host => host.turtle op args) :=
  Run.keeps_withHost fun _ _ hhost => hhost.moveTurtle _ _ _

instance (x y : Float) : Run.Keeps World.StaysTidy (Run.withHost fun host => host.setPos x y) :=
  Run.keeps_withHost fun _ _ hhost => hhost.moveTurtle _ _ _

instance (r : Option Ref) :
    Run.Keeps World.StaysTidy (modify fun w => { w with currentError := r }) :=
  ⟨fun h hw => by cases h; exact ⟨hw.heap, hw.frames, hw.code, hw.host⟩⟩

instance (random : Random) : Run.Keeps World.StaysTidy (modify fun w => { w with random }) :=
  ⟨fun h hw => by cases h; exact ⟨hw.heap, hw.frames, hw.code, hw.host⟩⟩

instance (repcount : Float) : Run.Keeps World.StaysTidy (modify fun w => { w with repcount }) :=
  ⟨fun h hw => by cases h; exact ⟨hw.heap, hw.frames, hw.code, hw.host⟩⟩

instance (low high : Int64) : Run.Keeps World.StaysTidy (drawBetween low high) :=
  ⟨fun h hw => by cases h; exact ⟨hw.heap, hw.frames, hw.code, hw.host⟩⟩

theorem World.Tidy.withFrames (hw : w.Tidy) {fs : Frames} (hfs : fs.Tidy w.heap) :
    World.Tidy { w with frames := fs } :=
  ⟨hw.heap, hfs, hw.code, hw.host⟩

instance (key : String) :
    Run.Keeps World.StaysTidy (Run.modifyFrames fun fs => fs.set key Ref.nothing) :=
  ⟨fun h hw => by cases h; exact hw.withFrames (hw.frames.set key (.inr rfl))⟩

instance (truth : Bool) : Run.Keeps World.StaysTidy (Run.modifyFrames fun fs =>
    fs.modifyTop fun frame => { frame with test := some truth }) :=
  ⟨fun h hw => by
    cases h
    exact hw.withFrames (hw.frames.modifyTop fun _ hf => ⟨hf.locals, hf.node, hf.line⟩)⟩

instance (names : List String) : Run.Keeps World.StaysTidy (Run.modifyFrames fun fs =>
    names.foldl (fun fs key => fs.bind key Ref.nothing) fs) := by
  refine ⟨fun {w _ _} h hw => ?_⟩
  cases h
  refine hw.withFrames ?_
  have hframes := hw.frames
  generalize w.frames = fs at hframes
  induction names generalizing fs with
  | nil => exact hframes
  | cons name names ih => exact ih _ (hframes.bind name (.inr rfl))

/-! ### Errors -/

/-- An error carries data, if anything, and remembers the call and the line that run. -/
theorem tidy_raiseWith {code : ErrorCode} {tag : Ref} {message : String} {output : Option Ref}
    {r : Ref} (hw : w.Tidy) (houtput : ∀ v ∈ output, w.heap.isData v = true)
    (h : raiseWith code tag message output w = .ok (r, w')) : w'.Tidy := by
  have htext := Making.Tidies.newText hw.heap message
  have htop := hw.frames.top.mono htext.later
  have herror := Making.Tidies.newObject htext.tidy (o := .error ⟨code, tag,
    (newText message w.heap).1, output, w.frames.top.node, w.frames.top.line⟩)
    ⟨Heap.isData_of_word? htext.post, fun v hv => htext.later.isData (houtput v hv), htop.node,
      htop.line⟩
  cases h
  exact hw.later herror.tidy (htext.later.trans herror.later) rfl rfl rfl

instance (code : ErrorCode) (tag : Ref) (message : String) :
    Run.Keeps World.StaysTidy (raiseWith code tag message none) :=
  ⟨fun h hw => tidy_raiseWith hw (by simp) h⟩

instance (code : ErrorCode) (args : List Ref) : Run.Keeps World.StaysTidy (raise code args) := by
  unfold raise; infer_instance
instance (who what : Ref) : Run.Keeps World.StaysTidy (raiseDoesntLike who what) := by
  unfold raiseDoesntLike; infer_instance
instance (what : Ref) : Run.Keeps World.StaysTidy (raiseDontSay what) := by
  unfold raiseDontSay; infer_instance
instance (source who : Ref) : Run.Keeps World.StaysTidy (raiseDidntOutput source who) := by
  unfold raiseDidntOutput; infer_instance
instance (source : Ref) (failure : CompileError) :
    Run.Keeps World.StaysTidy (raiseCompileFailure source failure) := by
  unfold raiseCompileFailure; infer_instance

/-- A throw takes nothing but data along. -/
instance (tag : Ref) (output : Option Ref) : Run.Keeps World.StaysTidy (throwTag tag output) := by
  refine ⟨fun {w r w'} h hw => ?_⟩
  unfold throwTag at h
  rw [Run.heap_bind] at h
  have houtput : ∀ v ∈ output.filter w.heap.isData, w.heap.isData v = true := fun v hv =>
    (Option.filter_eq_some_iff.mp hv).2
  generalize output.filter w.heap.isData = filtered at h houtput
  split at h
  · cases filtered with
    | none => exact Run.Keeps.keeps (R := World.StaysTidy) h hw
    | some message => exact tidy_raiseWith hw houtput h
  · exact tidy_raiseWith hw houtput h

instance (tag : String) (output : Option Ref) :
    Run.Keeps World.StaysTidy (throwNamed tag output) := by
  unfold throwNamed; infer_instance

instance : Run.Keeps World.StaysTidy pauseForValue := by
  have : Run.Keeps World.StaysTidy (Run.withHost Host.pause) := by
    refine Run.keeps_withHost fun h host hhost => ?_
    unfold Host.pause
    split
    · exact hhost
    · dsimp only
      split
      · exact ⟨hhost.replies, hhost.parses⟩
      · next heq =>
        exact ⟨fun r hr => hhost.replies r (heq ▸ List.mem_cons_of_mem _ hr), hhost.parses⟩
  unfold pauseForValue
  refine .bind inferInstance fun reply => ?_
  split <;> infer_instance

instance : Run.Keeps World.StaysTidy beginCatch := by
  unfold beginCatch; infer_instance

/-- `ERRACT` gets back what it had, if that was data. -/
instance (stash tag node result : Ref) :
    Run.Keeps World.StaysTidy (endCatch stash tag node result) := by
  refine ⟨fun {w r w'} h hw => ?_⟩
  unfold endCatch at h
  rw [Run.heap_bind] at h
  dsimp only at h
  split at h
  · next hdata =>
    obtain ⟨_, w₁, hset, hrun⟩ := Run.bind_eq_ok h
    cases hset
    refine (?_ : Run.Keeps World.StaysTidy _).keeps hrun
      (hw.withFrames (hw.frames.set _ (.inl hdata)))
    split <;> infer_instance
  · refine (?_ : Run.Keeps World.StaysTidy _).keeps h hw
    split <;> infer_instance

/-! ### Operations on data -/

/-- The result of an operation on data is data, or one object is changed to hold other data. -/
def DataResult.Tidy (h : Heap) : DataResult → Prop
  | found r => h.isData r = true
  | made make => make.Tidies h fun r h' => h'.isData r = true
  | changed target object => (h.get target).Becomes object ∧ object.Tidy h
  | dislikes _ => True

/-- How many inputs an operation needs, so that whatever it stores is one of them. -/
def DataOp.stores : DataOp → Nat
  | setItem | dotSetItem => 3
  | dotSetFirst => 2
  | _ => 0

namespace Heap.Tidy

variable {args : List Ref}

theorem text (ht : h.Tidy) (s : String) : (DataResult.text s).Tidy h :=
  (Making.Tidies.newText ht s).mono fun _ _ _ _ hword => isData_of_word? hword

theorem truth (ht : h.Tidy) (b : Bool) : (DataResult.truth b).Tidy h :=
  (Making.Tidies.newWord ht _).mono fun _ _ _ _ hword => isData_of_word? hword

theorem count (ht : h.Tidy) (x : Float) : (DataResult.made (newNumber x)).Tidy h :=
  (Making.Tidies.newWord ht _).mono fun _ _ _ _ hword => isData_of_word? hword

theorem orDislike {r : Option Ref} {culprit : Ref} (hr : ∀ s, r = some s → h.isData s = true) :
    (DataResult.orDislike r culprit).Tidy h := by
  cases r with
  | none => trivial
  | some r => exact hr r rfl

theorem findCell {test : Ref → Bool} {fuel : Nat} {r s : Ref}
    (hs : h.findCell test fuel r = some s) : h.isData s = true := by
  induction fuel generalizing r with
  | zero => cases hs
  | succ fuel ih =>
    unfold Heap.findCell at hs
    split at hs
    · next head tail hpair =>
      split at hs
      · cases hs
        exact isData_of_pair? hpair
      · exact ih hs
    · cases hs

theorem joinItems (ht : h.Tidy) {items : List Ref} (hargs : ∀ r ∈ args, h.isData r = true)
    (hjoin : h.joinItems args = .ok items) : ∀ r ∈ items, h.isData r = true := by
  induction args generalizing items with
  | nil =>
    cases hjoin
    simp
  | cons r rest ih =>
    rw [List.forall_mem_cons] at hargs
    unfold Heap.joinItems at hjoin
    split at hjoin
    · cases hrest : h.joinItems rest with
      | error culprit =>
        rw [hrest] at hjoin
        cases hjoin
      | ok items =>
        rw [hrest] at hjoin
        cases hjoin
        exact List.forall_mem_append.mpr ⟨fun s hs => ht.items hs, ih hargs.2 hrest⟩
    · cases hrest : h.joinItems rest with
      | error culprit =>
        rw [hrest] at hjoin
        cases hjoin
      | ok items =>
        rw [hrest] at hjoin
        cases hjoin
        exact List.forall_mem_cons.mpr ⟨hargs.1, ih hargs.2 hrest⟩
    · cases hjoin

theorem newBlankArray (ht : h.Tidy) (size : Nat) (origin : Int) :
    (newBlankArray size origin).Tidies h fun r h' => h'.isData r = true := by
  have hitems : ∀ {h : Heap} (units : List Unit), h.Tidy →
      (units.mapM fun _ => newEmpty).Tidies h fun items h' => ∀ r ∈ items, h'.isData r = true := by
    intro h units ht
    induction units generalizing h with
    | nil =>
      rw [List.mapM_nil]
      exact .pure ht (by simp)
    | cons _ units ih =>
      rw [List.mapM_cons]
      refine .bind (.newEmpty ht) fun r h₁ _ ht₁ hr => ?_
      refine .bind (ih ht₁) fun items h₂ hh₂ ht₂ hitems => ?_
      exact .pure ht₂ (List.forall_mem_cons.mpr ⟨hh₂.isData hr, hitems⟩)
  exact .bind (hitems _ ht) fun items h₁ _ ht₁ hitems => .newArray ht₁ origin hitems

/-- An input that is there is data. -/
theorem input (hargs : ∀ r ∈ args, h.isData r = true) {i : Nat} (hi : i < args.length) :
    h.isData (args[i]?.getD Ref.nothing) = true := by
  rw [List.getElem?_eq_getElem hi]
  exact hargs _ (List.getElem_mem hi)

/-- An input that is data is there. -/
theorem lt_length (ht : h.Tidy) {i : Nat} (hi : h.isData (args[i]?.getD Ref.nothing) = true) :
    i < args.length := by
  by_contra hlt
  rw [List.getElem?_eq_none (Nat.not_lt.mp hlt), Option.getD_none, isData, ht.nothing] at hi
  exact Bool.noConfusion hi

/-- A first input comes before a second one. -/
theorem firstInput (ht : h.Tidy) (hargs : ∀ r ∈ args, h.isData r = true)
    (hsecond : h.isData (args[1]?.getD Ref.nothing) = true) :
    h.isData (args.head?.getD Ref.nothing) = true := by
  rw [List.head?_eq_getElem?]
  exact input hargs (Nat.zero_lt_one.trans (ht.lt_length hsecond))

theorem cellObject (ht : h.Tidy) {r : Ref} {cell : Cell} (hcell : h.cell? r = some cell) :
    (Object.list cell).Tidy h :=
  get_of_cell? hcell ▸ ht.objects r

theorem isData_of_list {r : Ref} {cell : Cell} (hget : h.get r = .list cell) :
    h.isData r = true :=
  isData_iff.mpr (.inr (.inl ⟨cell, hget⟩))

/-- **Operations on data** make, find and store data. -/
theorem dataResult (ht : h.Tidy) (op : DataOp) (hargs : ∀ r ∈ args, h.isData r = true)
    (hcount : op.stores ≤ args.length) : (dataResult h op args).Tidy h := by
  have hpair {r : Ref} (f : Ref × Ref → Ref) (hf : ∀ p, f p = p.1 ∨ f p = p.2) (culprit : Ref) :
      (DataResult.orDislike ((h.pair? r).map f) culprit).Tidy h :=
    orDislike fun s hs => by
      obtain ⟨p, hp, rfl⟩ := Option.map_eq_some_iff.mp hs
      exact (hf p).elim (fun heq => heq ▸ (ht.pair hp).1) fun heq => heq ▸ (ht.pair hp).2
  cases op
  case setItem | dotSetItem =>
    simp only [LogoEngine.dataResult]
    split
    · next origin items hget =>
      split
      · trivial
      · split
        · refine ⟨hget ▸ .array _ _ _, fun r hr => ?_⟩
          rcases Array.mem_or_eq_of_mem_setIfInBounds hr with hr | rfl
          · exact ht.array hget hr
          · exact input hargs hcount
        · trivial
    · trivial
  case dotSetFirst =>
    simp only [LogoEngine.dataResult]
    split
    · next hcell =>
      have hobject := ht.cellObject hcell
      refine ⟨get_of_cell? hcell ▸ .list rfl, fun pair hpair => ?_, hobject.2⟩
      cases hpair
      exact ⟨input hargs hcount, (hobject.1 _ rfl).2⟩
    · trivial
  case dotSetBf =>
    simp only [LogoEngine.dataResult]
    split
    · trivial
    · trivial
    · next hcell hcell' =>
      have hobject := ht.cellObject hcell
      refine ⟨get_of_cell? hcell ▸ .list rfl, fun pair hpair => ?_, hobject.2⟩
      cases hpair
      exact ⟨(hobject.1 _ rfl).1, isData_of_cell? hcell'⟩
    · trivial
  case list => exact .newList ht hargs
  case sentence =>
    simp only [LogoEngine.dataResult]
    split
    · next hjoin => exact .newList ht (ht.joinItems hargs hjoin)
    · trivial
  case fput =>
    simp only [LogoEngine.dataResult]
    split
    · next hget =>
      have hb := isData_of_list hget
      refine (Making.Tidies.newCell ht ?_).mono fun _ _ _ _ hnew => ?_
      · rintro _ ⟨⟩
        exact ⟨ht.firstInput hargs hb, hb⟩
      · obtain ⟨_, hcell, _⟩ := hnew
        exact isData_of_cell? hcell
    · exact ht.text _
    · trivial
  case lput =>
    simp only [LogoEngine.dataResult]
    split
    · next hget =>
      refine .newList ht (List.forall_mem_append.mpr ⟨fun r hr => ht.items hr, ?_⟩)
      simpa using ht.firstInput hargs (isData_of_list hget)
    · exact ht.text _
    · trivial
  case array =>
    simp only [LogoEngine.dataResult]
    split
    · split
      · split
        · exact ht.newBlankArray _ _
        · trivial
      · trivial
    · trivial
  case listToArray =>
    simp only [LogoEngine.dataResult]
    split
    · split
      · exact .newArray ht _ fun r hr => ht.items hr
      · trivial
    · trivial
  case arrayToList =>
    simp only [LogoEngine.dataResult]
    split
    · next hget => exact .newList ht fun r hr => ht.array hget (Array.mem_toList_iff.mp hr)
    · trivial
  case first =>
    simp only [LogoEngine.dataResult]
    split
    · split
      · exact ht.text _
      · trivial
    · exact hpair Prod.fst (fun _ => .inl rfl) _
    · next hget => exact orDislike fun s hs => ht.array hget (Array.mem_of_getElem? hs)
    · trivial
  case last =>
    simp only [LogoEngine.dataResult]
    split
    · split
      · exact ht.text _
      · trivial
    · exact orDislike fun s hs => ht.items (List.mem_of_getLast? hs)
    · next hget => exact orDislike fun s hs => ht.array hget (Array.mem_of_back? hs)
    · trivial
  case butFirst =>
    simp only [LogoEngine.dataResult]
    split
    · split
      · exact ht.text _
      · trivial
    · exact hpair Prod.snd (fun _ => .inr rfl) _
    · trivial
  case butLast =>
    simp only [LogoEngine.dataResult]
    split
    · split
      · trivial
      · exact ht.text _
    · split
      · trivial
      · exact .newList ht fun r hr => ht.items (List.mem_of_mem_dropLast hr)
    · trivial
  case item =>
    simp only [LogoEngine.dataResult]
    split
    · trivial
    · split
      · split
        · exact ht.text _
        · trivial
      · refine orDislike fun s hs => ?_
        split at hs
        · exact ht.item? hs
        · cases hs
      · refine orDislike fun s hs => ?_
        unfold arrayGet? at hs
        split at hs
        · next hget =>
          obtain ⟨slot, -, hslot⟩ := Option.bind_eq_some_iff.mp hs
          exact ht.array hget (Array.mem_of_getElem? hslot)
        · cases hs
      · trivial
  case member =>
    simp only [LogoEngine.dataResult]
    split
    · split
      · next hcell => exact findCell hcell
      · exact .newEmpty ht
    · exact ht.text _
    · trivial
  -- the others make words
  all_goals
    simp only [LogoEngine.dataResult]
    repeat' split
    all_goals first | trivial | exact ht.text _ | exact ht.truth _ | exact ht.count _

end Heap.Tidy

instance (name : Ref) : Run.Keeps World.StaysTidy (variableNamed name) := by
  unfold variableNamed
  refine .bind inferInstance fun w => ?_
  split <;> infer_instance

/-- Data or a token. -/
def World.IsOutcome (w : World) (r : Ref) : Prop :=
  w.heap.isData r = true ∨ w.IsToken r

instance {m : Run Ref} [hm : Run.Gives World.IsToken m] : Run.Gives World.IsOutcome m :=
  ⟨fun h => .inr (hm.gives h)⟩

theorem tidy_applyData {op : DataOp} {node r : Ref} {args : List Ref} (hw : w.Tidy)
    (hargs : ∀ a ∈ args, w.heap.isData a = true) (hcount : op.stores ≤ args.length)
    (h : applyData op node args w = .ok (r, w')) :
    w'.Tidy ∧ (op.changes = false → w'.IsOutcome r) := by
  unfold applyData at h
  split at h
  · refine ⟨Run.Keeps.keeps (R := World.StaysTidy) h hw, fun _ => ?_⟩
    unfold variableNamed at h
    rw [Run.get_bind] at h
    cases hfound : (w.frames.get? (w.heap.keyOf (args.head?.getD Ref.nothing))).filter
        w.heap.isData with
    | some found =>
      rw [hfound] at h
      cases h
      exact .inl (Option.filter_eq_some_iff.mp hfound).2
    | none =>
      rw [hfound] at h
      exact .inr (Run.Gives.gives (m := raise .noValue _) h)
  · rw [Run.heap_bind] at h
    have hresult := hw.heap.dataResult op hargs hcount
    cases heq : dataResult w.heap op args with
    | found r =>
      rw [heq] at h hresult
      cases h
      exact ⟨hw, fun _ => .inl hresult⟩
    | made make =>
      rw [heq] at h hresult
      exact (hw.making hresult h).imp_right fun hdata _ => .inl hdata
    | changed target object =>
      rw [heq] at h hresult
      cases h
      refine ⟨hw.later (hw.heap.set rfl hresult.1 hresult.2) (.of_set rfl hresult.1) rfl rfl rfl,
        fun hop => ?_⟩
      cases op
      case setItem | dotSetItem | dotSetFirst | dotSetBf => cases hop
      -- no other operation changes anything
      all_goals
        exfalso
        revert heq
        simp only [dataResult, DataResult.orDislike]
        repeat' split
        all_goals rintro ⟨⟩
    | dislikes culprit =>
      rw [heq] at h
      exact ⟨Run.Keeps.keeps (R := World.StaysTidy) (m := raiseDoesntLike node culprit) h hw,
        fun _ => .inr (Run.Gives.gives (m := raiseDoesntLike node culprit) h)⟩

/-! ### Output, errors and the turtle -/

theorem Object.eq_error_of_error? {o : Object} {e : ErrorRecord} (h : o.error? = some e) :
    o = .error e := by
  cases o <;> cases h
  rfl

instance (mode : WriteMode) (values : List Ref) :
    Run.Keeps World.StaysTidy (writeValues mode values) := by
  unfold writeValues; infer_instance

instance (r : Ref) : Run.Keeps World.StaysTidy (writeError r) := by
  unfold writeError
  refine .bind inferInstance fun h => ?_
  split <;> infer_instance

instance (value width places : Float) :
    Run.Keeps World.StaysTidy (formText value width places) := by
  unfold formText; infer_instance

instance (outcome : Except ErrorCode Unit) : Run.Keeps World.StaysTidy (turtleResult outcome) := by
  unfold turtleResult
  split <;> infer_instance

instance (node pos : Ref) (act : Float → Float → Run Ref)
    [∀ x y, Run.Keeps World.StaysTidy (act x y)] :
    Run.Keeps World.StaysTidy (atPosition node pos act) := by
  unfold atPosition
  refine .bind inferInstance fun h => ?_
  split <;> infer_instance

instance (node : Ref) (args : List Ref) : Run.Keeps World.StaysTidy (makeLocal node args) := by
  induction args with
  | nil => unfold makeLocal; infer_instance
  | cons r rest ih => unfold makeLocal; infer_instance

/-- A value, or an empty list where there is none. -/
def valueOrEmpty (r : Option Ref) : Run Ref :=
  match r with
  | some r => return r
  | none => Run.making newEmpty

theorem errorList_apply (w : World) : errorList w =
    (match w.currentError.bind fun r => (w.heap.get r).error? with
      | none => Run.making newEmpty
      | some e => do
        let call ← valueOrEmpty (e.procedure.map w.heap.displayName)
        let line ← valueOrEmpty e.line
        Run.making do
          let code ← newNumber (Float.ofNat e.code.number)
          newList [code, e.message, call, line]) { w with currentError := none } := by
  have hset (f : Unit → Run Ref) : (set { w with currentError := none } >>= f) w =
      f () { w with currentError := none } := rfl
  unfold errorList valueOrEmpty
  rw [Run.get_bind, hset]
  cases w.currentError.bind fun r => (w.heap.get r).error? with
  | none => rfl
  | some e =>
    obtain ⟨code, tag, message, output, procedure, line⟩ := e
    cases procedure <;> cases line <;>
      simp only [pure_bind, Option.map_some, Option.map_none]

theorem tidy_valueOrEmpty {found : Option Ref} {r : Ref} (hw : w.Tidy)
    (hfound : ∀ r ∈ found, w.heap.isData r = true) (h : valueOrEmpty found w = .ok (r, w')) :
    w'.Tidy ∧ w'.heap.isData r = true ∧ w.heap.Extends w'.heap := by
  cases found with
  | some found =>
    cases h
    exact ⟨hw, hfound _ rfl, .refl _⟩
  | none =>
    have hmade := Making.Tidies.newEmpty hw.heap
    obtain ⟨hw', hdata⟩ := hw.making hmade h
    cases h
    exact ⟨hw', hdata, hmade.later⟩

/-- The parts of an error that are reported are data. -/
theorem tidy_errorList {r : Ref} (hw : w.Tidy) (h : errorList w = .ok (r, w')) :
    w'.Tidy ∧ w'.heap.isData r = true := by
  have hforget : World.Tidy { w with currentError := none } :=
    ⟨hw.heap, hw.frames, hw.code, hw.host⟩
  rw [errorList_apply] at h
  cases herror : w.currentError.bind fun r => (w.heap.get r).error? with
  | none =>
    rw [herror] at h
    have hnone : ∀ r ∈ (none : Option Ref), w.heap.isData r = true := by simp
    obtain ⟨hw', hdata, -⟩ := tidy_valueOrEmpty hforget hnone h
    exact ⟨hw', hdata⟩
  | some e =>
    rw [herror] at h
    obtain ⟨record, -, hrecord⟩ := Option.bind_eq_some_iff.mp herror
    have hobject := hw.heap.objects record
    rw [Object.eq_error_of_error? hrecord] at hobject
    obtain ⟨hmessage, -, hcall, hline⟩ := hobject
    obtain ⟨call, w₁, hfirst, hrest⟩ := Run.bind_eq_ok h
    obtain ⟨hw₁, hcall, hh₁⟩ := tidy_valueOrEmpty hforget (fun r hr => by
      obtain ⟨node, hnode, rfl⟩ := Option.map_eq_some_iff.mp hr
      exact hcall node hnode) hfirst
    obtain ⟨line, w₂, hsecond, hrest⟩ := Run.bind_eq_ok hrest
    obtain ⟨hw₂, hline, hh₂⟩ := tidy_valueOrEmpty hw₁ (fun r hr => hh₁.isData (hline r hr)) hsecond
    refine hw₂.making (Making.Tidies.bind (.newWord hw₂.heap _)
      fun code h₁ hh ht hcode => .newList ht ?_) hrest
    simp only [List.mem_cons, List.not_mem_nil, or_false, forall_eq_or_imp, forall_eq]
    exact ⟨Heap.isData_of_word? hcode, (hh₁.trans (hh₂.trans hh)).isData hmessage,
      (hh₂.trans hh).isData hcall, hh.isData hline⟩

/-! ### Compiling -/

theorem Heap.Tidy.recordLabels (ht : h.Tidy) (r : Ref) (labels : List (String × LabelTarget)) :
    (h.recordLabels r labels).Tidy := by
  unfold Heap.recordLabels
  split
  · next p hget =>
    have hobject := ht.objects r
    rw [hget] at hobject
    exact ht.set rfl (hget ▸ .procedure _ _) hobject
  · exact ht

/-- The host parses to nodes with literals that are data. -/
theorem tidy_parseSource {source : Ref} {found : Option Parse} (hw : w.Tidy)
    (h : parseSource source w = .ok (found, w')) :
    w'.Tidy ∧ ∀ parse, found = some parse → parse.Tidy w'.heap := by
  have hasked : (w.host.parse (w.heap.showForm source)).2.Tidy w.heap ∧
      ∀ groups, (w.host.parse (w.heap.showForm source)).1 = some groups →
        ∀ group ∈ groups, ∀ node ∈ group,
          node.Makes w.heap (w.host.parse (w.heap.showForm source)).2.kept .node := by
    unfold Host.parse
    split
    · exact ⟨hw.host, by simp⟩
    · exact ⟨⟨hw.host.replies, hw.host.parses⟩, hw.host.parses _⟩
  unfold parseSource at h
  rw [Run.heap_bind, Run.withHost_bind] at h
  generalize w.host.parse (w.heap.showForm source) = asked at h hasked
  obtain ⟨groups, host⟩ := asked
  have hw₁ : World.Tidy { w with host } := ⟨hw.heap, hw.frames, hw.code, hasked.1⟩
  cases groups with
  | none =>
    cases h
    exact ⟨hw₁, by simp⟩
  | some groups =>
    have hmade : (do
        let groups ← Sketch.buildGroups host.kept groups
        let h ← get
        return groups.map fun group => group.map h.nodeOf : Making Parse).Tidies w.heap
          fun parse h' => Parse.Tidy h' parse := by
      refine .bind (Sketch.tidies_buildGroups (fun group hgroup node hnode =>
        (hasked.2 groups rfl group hgroup node hnode).tidies) (.refl _) hw.heap)
        fun refs h₁ _ ht₁ hrefs => .bind (.get ht₁) fun _ _ _ _ hsame => ?_
      obtain ⟨rfl, rfl⟩ := hsame
      refine .pure ht₁ fun group hgroup node hnode => ?_
      obtain ⟨rs, hrs, rfl⟩ := List.mem_map.mp hgroup
      exact Making.Tidies.inputs_tidy ht₁ (.refl _) (hrefs rs hrs) node hnode
    dsimp only at h
    rw [Run.get_bind] at h
    obtain ⟨parse, w₂, hbuild, hrest⟩ := Run.bind_eq_ok h
    obtain ⟨hw₂, hparse⟩ := hw₁.making hmade hbuild
    cases hrest
    exact ⟨hw₂, fun _ heq => Option.some.inj heq ▸ hparse⟩

theorem tidy_refreshParse {source : Ref} {cell : Cell} {result : Except CompileError Unit}
    (hw : w.Tidy) (h : (refreshParse source cell).run w = .ok (result, w')) : w'.Tidy := by
  rw [refreshParse_run] at h
  split at h
  · obtain ⟨found, w₁, hparse, hrest⟩ := Run.bind_eq_ok h
    obtain ⟨hw₁, hfound⟩ := tidy_parseSource hw hparse
    have hlater {h' : Heap} (ht : h'.Tidy) (hh : w₁.heap.Extends h') :
        World.Tidy { w₁ with heap := h' } :=
      hw₁.later ht hh rfl rfl rfl
    cases found with
    | some parse =>
      cases hrest
      exact hlater (hw₁.heap.attach source (hfound parse rfl)) (w₁.heap.extends_attach source parse)
    | none =>
      dsimp only at hrest
      split at hrest
      · cases hrest
        exact hlater (hw₁.heap.restamp source) (w₁.heap.extends_restamp source)
      · cases hrest
        exact hw₁
  · cases h
    exact hw

theorem tidy_lowerAndLink {name : String} {parse : Parse} {procedure source : Option Ref}
    {result : Except CompileError Entry} (hw : w.Tidy) (hparse : parse.Tidy w.heap)
    (h : (lowerAndLink name parse procedure source).run w = .ok (result, w')) :
    w'.Tidy ∧ ∀ entry, result = .ok entry → entry.code.Tidy w'.heap := by
  obtain ⟨heap, hlabelled, hheap, hcases⟩ := lowerAndLink_cases h
  have htidy : heap.Tidy := by
    rw [hlabelled]
    cases procedure with
    | none => exact hw.heap
    | some p => exact hw.heap.recordLabels p _
  have hw₁ : World.Tidy { w with heap } := hw.later htidy hheap.extends rfl rfl rfl
  rcases hcases with ⟨e, rfl, rfl⟩ | ⟨routine, linked, hroutine, hlinked, rfl, rfl⟩
  · exact ⟨hw₁, fun _ hok => nomatch hok⟩
  · refine ⟨⟨hw₁.heap, hw₁.frames, hw₁.code, hw₁.host⟩, fun entry hentry => ?_⟩
    cases hentry
    exact ⟨w.heap, parse, hheap.extends, hparse, name, source, routine, _, hroutine, hlinked⟩

/-- Code for a source is tidy, be it from the cache or not. -/
theorem World.Codes.tidy {pins : Pins} {r : Ref} {id stamp : Nat} {name : String} {parse : Parse}
    {procedure source : Option Ref} {result : Except CompileError Entry}
    (h : w.Codes pins r id stamp name parse procedure source result w') (hw : w.Tidy)
    (hparse : parse.Tidy w.heap) : w'.Tidy ∧ ∀ entry, result = .ok entry → entry.code.Tidy w'.heap := by
  have hlooked : World.Tidy (w.lookedUp id stamp) :=
    ⟨hw.heap, hw.frames, fun e he => hw.code e (World.mem_of_mem_lookedUp he), hw.host⟩
  cases h with
  | stored hstored =>
    refine ⟨hlooked, fun entry hentry => ?_⟩
    cases hentry
    exact hw.code _ (List.mem_of_find?_eq_some hstored)
  | refused hlower =>
    exact ⟨(tidy_lowerAndLink hlooked hparse hlower).1, fun _ hok => nomatch hok⟩
  | @entered entry w₁ hmiss hlower alive =>
    obtain ⟨hw₁, hcode⟩ := tidy_lowerAndLink hlooked hparse hlower
    refine ⟨⟨hw₁.heap, hw₁.frames, fun e he => ?_, hw₁.host⟩, fun entry' hentry => ?_⟩
    · rcases List.mem_cons.mp he with rfl | he
      · exact hcode entry rfl
      · have hmem := List.mem_of_mem_filter he
        split at hmem
        · exact hw₁.code e (List.mem_of_mem_filter hmem)
        · exact hw₁.code e hmem
    · cases hentry
      exact hcode entry rfl

theorem tidy_compileSource {pins : Pins} {source : Ref} {procedure : Option Ref}
    {result : Except CompileError Entry} (hw : w.Tidy)
    (h : (compileSource pins source procedure).run w = .ok (result, w')) :
    w'.Tidy ∧ ∀ entry, result = .ok entry → entry.code.Tidy w'.heap := by
  cases compileSource_compiles h with
  | unparsed _ hparse => exact ⟨(tidy_parseSource hw hparse).1, fun _ hok => nomatch hok⟩
  | @parsed _ parse _ _ _ _ hparse hlower =>
    obtain ⟨hw₁, hfound⟩ := tidy_parseSource hw hparse
    exact tidy_lowerAndLink hw₁ (hfound parse rfl) hlower
  | stale _ hrefresh => exact ⟨tidy_refreshParse hw hrefresh, fun _ hok => nomatch hok⟩
  | lost _ hrefresh => exact ⟨tidy_refreshParse hw hrefresh, fun _ hok => nomatch hok⟩
  | @coded _ cell' _ _ _ _ _ hrefresh hcell' hcodes =>
    have hw₁ := tidy_refreshParse hw hrefresh
    refine hcodes.tidy hw₁ ?_
    cases hparse : cell'.parse with
    | none => exact fun _ hgroup => absurd hgroup List.not_mem_nil
    | some parse => exact (hw₁.heap.cellObject hcell').2 parse hparse

theorem tidy_compileNode {pins : Pins} {node : Ref} {result : Except CompileError Entry}
    (hw : w.Tidy) (h : (compileNode pins node).run w = .ok (result, w')) :
    w'.Tidy ∧ ∀ entry, result = .ok entry → entry.code.Tidy w'.heap := by
  rcases compileNode_codes h with ⟨head, inputs, name, hget, hcodes⟩ | ⟨⟨e, rfl⟩, rfl⟩
  · have hobject := hw.heap.objects node
    rw [hget] at hobject
    refine hcodes.tidy hw fun group hgroup input hinput => ?_
    rw [List.mem_singleton] at hgroup
    rw [hgroup, List.mem_singleton] at hinput
    exact hinput ▸ hobject.1
  · exact ⟨hw, fun _ hok => nomatch hok⟩

/-! ### Helpers -/

/-- What a helper must be given that runs, stores or passes on something. -/
def Helper.Fit (h : Heap) : Helper → List Value → Prop
  | .runList, args | .runResult, args => h.isData (datumArg args 0) = true
  | .runProcedure, args =>
    h.Named (datumArg args 0) ∧ ∀ r ∈ restArgs args 1, h.isData r = true
  | .continuationToken, args =>
    h.Named (datumArg args 1) ∧ ∀ r ∈ restArgs args 2, h.isData r = true
  | .setVar, args => h.isData (datumArg args 2) = true
  | .data op, args =>
    (∀ r ∈ restArgs args 1, h.isData r = true) ∧ op.stores ≤ (restArgs args 1).length
  | _, _ => True

/-- What is known of the result of a helper that makes data. -/
def Helper.Outcome (w : World) : Helper → Value → Prop
  | .wordFromReal, v | .wordFromTruth, v | .form, v | .pos, v | .errorList, v =>
    w.heap.isData v.asDatum = true
  | .runResult, v | .towards, v => w.IsOutcome v.asDatum
  | .data op, v => op.changes = false → w.IsOutcome v.asDatum
  | _, _ => True

/-- Running lists and procedures leaves a tidy evaluator tidy. -/
class Reenter.Tidy (re : Reenter) : Prop where
  list : ∀ {pins list w r w'}, w.Tidy → w.heap.isData list = true →
    re.list pins list w = .ok (r, w') → w'.Tidy
  procedure : ∀ {pins node args w r w'}, w.Tidy → w.heap.Named node →
    (∀ a ∈ args, w.heap.isData a = true) → re.procedure pins node args w = .ok (r, w') → w'.Tidy

theorem Run.map_eq_ok {α β : Type} {f : α → β} {m : Run α} {b : β}
    (h : (f <$> m) w = .ok (b, w')) : ∃ a, m w = .ok (a, w') ∧ b = f a := by
  rw [map_eq_pure_bind] at h
  obtain ⟨a, w₁, hm, hpure⟩ := Run.bind_eq_ok h
  cases hpure
  exact ⟨a, hm, rfl⟩

/-- Making data. -/
theorem World.Tidy.made {m : Making Ref} {v : Value} (hw : w.Tidy)
    (hm : m.Tidies w.heap fun r h' => h'.isData r = true)
    (h : (Value.datum <$> Run.making m) w = .ok (v, w')) :
    w'.Tidy ∧ w'.heap.isData v.asDatum = true := by
  obtain ⟨r, hmade, rfl⟩ := Run.map_eq_ok h
  exact hw.making hm hmade

theorem Making.Tidies.word (ht : h.Tidy) (v : Word) :
    (LogoEngine.newWord v).Tidies h fun r h' => h'.isData r = true :=
  (newWord ht v).mono fun _ _ _ _ hword => Heap.isData_of_word? hword

section

variable {re : Reenter} {pins : Pins} {args : List Value} {v : Value}

/-- The value of a list that ran becomes the item of another one. -/
theorem tidy_runResult [hre : re.Tidy] (hw : w.Tidy)
    (hlist : w.heap.isData (datumArg args 0) = true)
    (h : callHelper re pins .runResult args w = .ok (v, w')) :
    w'.Tidy ∧ w'.IsOutcome v.asDatum := by
  obtain ⟨result, w₁, hrun, hrest⟩ := Run.bind_eq_ok h
  have hw₁ := hre.list hw hlist hrun
  rw [Run.heap_bind] at hrest
  split at hrest
  · next hflow =>
    cases hrest
    exact ⟨hw₁, .inr hflow⟩
  · split at hrest
    · next hdata =>
      exact (hw₁.made (.newList hw₁.heap (List.forall_mem_singleton.mpr hdata)) hrest).imp_right .inl
    · exact (hw₁.made (.newEmpty hw₁.heap) hrest).imp_right .inl

/-- A token of a way out carries data, if anything. -/
theorem tidy_returnToken (hw : w.Tidy)
    (h : callHelper re pins .returnToken args w = .ok (v, w')) : w'.Tidy := by
  obtain ⟨heap, w₁, hheap, hrest⟩ := Run.bind_eq_ok h
  cases hheap
  obtain ⟨r, hmade, -⟩ := Run.map_eq_ok hrest
  refine (hw.making (Making.Tidies.newObject (o := .ret _ _) hw.heap fun r hr => ?_) hmade).1
  split at hr
  · next hdata =>
    cases hr
    exact hdata
  · cases hr

/-- A heading is a word, or the position is disliked. -/
theorem tidy_towards (hw : w.Tidy) (h : callHelper re pins .towards args w = .ok (v, w')) :
    w'.Tidy ∧ w'.IsOutcome v.asDatum := by
  obtain ⟨r, hrun, rfl⟩ := Run.map_eq_ok h
  unfold atPosition at hrun
  rw [Run.heap_bind] at hrun
  cases hpos : position? w.heap (datumArg args 1) with
  | none =>
    rw [hpos] at hrun
    exact ⟨Run.Keeps.keeps (R := World.StaysTidy) (m := raiseDoesntLike _ _) hrun hw,
      .inr (Run.Gives.gives (m := raiseDoesntLike _ _) hrun)⟩
  | some p =>
    rw [hpos] at hrun
    exact (hw.making (.word hw.heap _) hrun).imp_right .inl

/-- **What helpers leave behind.** An evaluator stays tidy if what it is to store, run or pass on
is data, and helpers that make data do. -/
theorem tidy_callHelper [hre : re.Tidy] {helper : Helper} (hw : w.Tidy)
    (hfit : helper.Fit w.heap args) (h : callHelper re pins helper args w = .ok (v, w')) :
    w'.Tidy ∧ helper.Outcome w' v := by
  -- the helpers that run code, make data or store something; the rest leaves the evaluator as tidy
  cases helper
  case runList =>
    obtain ⟨r, hrun, -⟩ := Run.map_eq_ok h
    exact ⟨hre.list hw hfit hrun, trivial⟩
  case runProcedure =>
    obtain ⟨r, hrun, -⟩ := Run.map_eq_ok h
    exact ⟨hre.procedure hw hfit.1 hfit.2 hrun, trivial⟩
  case runResult => exact tidy_runResult hw hfit h
  case continuationToken =>
    obtain ⟨r, hmade, -⟩ := Run.map_eq_ok h
    have htoken : Object.Tidy w.heap
      (.continuation (datumArg args 0) (datumArg args 1) (restArgs args 2)) := hfit
    exact ⟨(hw.making (.newObject hw.heap htoken) hmade).1, trivial⟩
  case returnToken => exact ⟨tidy_returnToken hw h, trivial⟩
  case setVar =>
    cases h
    exact ⟨hw.withFrames (hw.frames.set _ (.inl hfit)), trivial⟩
  case data op =>
    obtain ⟨r, hrun, rfl⟩ := Run.map_eq_ok h
    exact tidy_applyData hw hfit.1 hfit.2 hrun
  case errorList =>
    obtain ⟨r, hrun, rfl⟩ := Run.map_eq_ok h
    exact tidy_errorList hw hrun
  case wordFromReal | wordFromTruth => exact hw.made (.word hw.heap _) h
  case form =>
    obtain ⟨r, hrun, rfl⟩ := Run.map_eq_ok h
    unfold formText at hrun
    generalize (if realArg args 1 > 0.0 then realArg args 1 else 0.0).toUInt64.toNat = width at hrun
    split at hrun
    · exact hw.making ((Making.Tidies.newText hw.heap _).mono
        fun _ _ _ _ hword => Heap.isData_of_word? hword) hrun
    · cases hrun
  case pos =>
    have hmade : (do
        let x ← newNumber w.host.turtleState.x
        let y ← newNumber w.host.turtleState.y
        newList [x, y]).Tidies w.heap fun r h' => h'.isData r = true := by
      refine .bind (.word hw.heap _) fun x h₁ _ ht₁ hx => .bind (.word ht₁ _)
        fun y h₂ hh ht₂ hy => .newList ht₂ ?_
      simpa using ⟨hh.isData hx, hy⟩
    exact hw.made hmade h
  case towards => exact tidy_towards hw h
  all_goals
    refine ⟨?_, trivial⟩
    unfold callHelper at h
    exact Run.Keeps.keeps (R := World.StaysTidy) h hw

end

end LogoEngine
