import LogoEngine.Proofs.Eval.Raising
import LogoEngine.Proofs.Lower.Handing
import LogoEngine.Proofs.Lower.Settling

/-!
# `CATCH` and `THROW`

Every error has a **key**: that of its tag for a throw, and `ERROR` for an ordinary error. `CATCH`
takes an error if the key of its own tag is the same, whatever list the error came from, and else
hands the very same error on. `THROW` leaves with the error it makes.

Both are said of the one call that belongs to the statement itself and not to its inputs
(`Node.Calls`): `CATCH` has its list run, and `THROW` makes its error. Before the list is run the
value of `ERRACT` was put aside, and what the list came to is looked at when it was put back.

Main statements: `Node.Calls.exists_catch`, which tells what comes before the list and after it,
`Node.Calls.ends_of_catch` and `Node.Calls.hands_of_throw`.
-/

namespace LogoEngine

/-! ### Errors and their keys -/

/-- An error is looked for by a key, and has a value for the `CATCH` that takes it. -/
inductive World.Raised (w : World) (t : Ref) : String → Option Ref → Prop
  /-- A throw, with its value if it has one. -/
  | thrown {key : String} {value : Option Ref} (hthrow : w.IsThrow t key value)
      (hkey : key ≠ "ERROR") (hvalue : ∀ v ∈ value, w.heap.isData v = true) : Raised w t key value
  /-- An ordinary error, or a throw of `ERROR`. -/
  | ordinary {e : ErrorRecord} (hget : w.heap.get t = .error e)
      (hordinary : e.code ≠ .noCatch ∨ w.heap.tagKey e = "ERROR") : Raised w t "ERROR" none

/-- What the state is after an error was taken: a throw is forgotten. -/
def World.caught (w : World) (key : String) : World :=
  if key = "ERROR" then w else { w with currentError := none }

section

variable {w w' : World} {t : Ref} {key : String} {value : Option Ref}

@[simp]
theorem World.caught_heap (w : World) (key : String) : (w.caught key).heap = w.heap := by
  unfold caught
  split <;> rfl

theorem World.Raised.exists_error (h : w.Raised t key value) : ∃ e, w.heap.get t = .error e := by
  cases h with
  | thrown hthrow => exact ⟨_, hthrow.choose_spec.1⟩
  | ordinary hget => exact ⟨_, hget⟩

/-- Errors are handed on. -/
theorem World.Raised.isFlow (h : w.Raised t key value) : w.heap.isFlow t = true := by
  obtain ⟨e, hget⟩ := h.exists_error
  rw [Heap.isFlow, hget]
  exact Object.isFlow_of_kind .error rfl (by decide)

/-- The value of an error is data. -/
theorem World.Raised.isData (h : w.Raised t key value) {v : Ref} (hv : value = some v) :
    w.heap.isData v = true := by
  cases h with
  | thrown _ _ hvalue => exact hvalue v hv
  | ordinary => cases hv

theorem World.Raised.congr (h : w.Raised t key value) (hheap : w'.heap = w.heap) :
    w'.Raised t key value := by
  cases h with
  | thrown hthrow hkey hvalue =>
    refine .thrown ?_ hkey (hheap ▸ hvalue)
    rw [World.IsThrow, hheap]
    exact hthrow
  | ordinary hget hordinary => exact .ordinary (hheap ▸ hget) (hheap ▸ hordinary)

/-- **A catch takes an error by its key.** If the key of its tag is that of the error, its result is
the value of the error, and a throw is forgotten. Else the error is its result. `ERRACT` is put
back in either case. -/
theorem endCatch_error (h : w.Raised t key value) (stash tag node : Ref) :
    ∃ w₁, w.Restores w₁ ∧ endCatch stash tag node t w =
      .ok (if w.heap.keyOf tag = key then (value.getD node, w₁.caught key) else (t, w₁)) := by
  -- first `ERRACT` is put back
  let w₁ : World :=
    if w.heap.isData stash = true then { w with frames := w.frames.set "ERRACT" stash } else w
  have hrestores : w.Restores w₁ := by
    by_cases hstash : w.heap.isData stash = true
    · simp only [w₁, if_pos hstash]
      exact .single (.erract w stash)
    · simp only [w₁, if_neg hstash]
      exact .refl
  -- then the error is looked at
  obtain ⟨e, hget⟩ := h.exists_error
  have hlook : endCatch stash tag node t w =
      if w.heap.keyOf tag = "ERROR" ∧ (e.code ≠ .noCatch ∨ w.heap.tagKey e = "ERROR") then
        .ok (node, w₁)
      else if e.code = .noCatch ∧ w.heap.tagKey e = w.heap.keyOf tag then
        .ok (e.output.getD node, { w₁ with currentError := none })
      else .ok (t, w₁) := by
    have herror : (w.heap.get t).error? = some e := by rw [hget]; rfl
    rw [endCatch, Run.heap_bind, herror]
    by_cases hstash : w.heap.isData stash = true
    · simp only [w₁, if_pos hstash]
      rw [Run.modifyFrames_bind]
      split
      · rfl
      · split <;> rfl
    · simp only [w₁, if_neg hstash]
      split
      · rfl
      · split <;> rfl
  refine ⟨w₁, hrestores, hlook.trans ?_⟩
  cases h with
  | thrown hthrow hkey =>
    obtain ⟨e', hget', hcode, rfl, rfl⟩ := hthrow
    obtain rfl : e = e' := Object.error.inj (hget.symm.trans hget')
    have hspecial : ¬ (e.code ≠ .noCatch ∨ w.heap.tagKey e = "ERROR") :=
      not_or.mpr ⟨not_not.mpr hcode, hkey⟩
    rw [if_neg fun hand => hspecial hand.2]
    by_cases hsame : w.heap.keyOf tag = w.heap.tagKey e
    · rw [if_pos ⟨hcode, hsame.symm⟩, if_pos hsame, World.caught, if_neg hkey]
    · rw [if_neg fun hand => hsame hand.2.symm, if_neg hsame]
  | ordinary hget' hordinary =>
    obtain rfl := Object.error.inj (hget.symm.trans hget')
    by_cases hsame : w.heap.keyOf tag = "ERROR"
    · rw [if_pos ⟨hsame, hordinary⟩, if_pos hsame, World.caught, if_pos rfl, Option.getD_none]
    · have hthrow : ¬ (e.code = .noCatch ∧ w.heap.tagKey e = w.heap.keyOf tag) := by
        rintro ⟨hcode, hthrown⟩
        exact hordinary.elim (· hcode) fun hkey => hsame (hthrown.symm.trans hkey)
      rw [if_neg fun hand => hsame hand.1, if_neg hthrow, if_neg hsame]

/-- The error of a throw has the key of its tag, and its value is that of the throw if it is data;
the error of a throw of `ERROR` has none. -/
theorem World.raised_of_throwTag {tag v : Ref} {word : Word} (htag : w.heap.word? tag = some word)
    (h : throwTag tag (some v) w = .ok (t, w')) :
    w'.Raised t word.key
      (if word.key = "ERROR" then none else (some v).filter w.heap.isData) := by
  by_cases hkey : word.key = "ERROR"
  · -- an error of the user's own, with a message or without
    rw [if_pos hkey, hkey]
    have hraise : ∃ code message output, code ≠ ErrorCode.noCatch ∧
        throwTag tag (some v) w = raiseWith code tag message output w := by
      rw [throwTag, Run.heap_bind, htag]
      simp only [Option.map_some, Option.getD_some, if_pos hkey]
      cases (some v).filter w.heap.isData with
      | none => exact ⟨_, _, _, by decide, rfl⟩
      | some message => exact ⟨_, _, _, by decide, rfl⟩
    obtain ⟨code, message, output, hcode, heq⟩ := hraise
    obtain ⟨r, w₁, e, hraised, hraises, rfl, -⟩ := exists_raiseWith code tag message output w
    rw [heq, hraised] at h
    cases h
    exact .ordinary hraises.get_eq (.inl hcode)
  · rw [if_neg hkey]
    obtain ⟨r, w₁, e, hthrow, hraises, hrecord⟩ := exists_throwTag (some v) htag hkey
    rw [hthrow] at h
    cases h
    refine .thrown hrecord hkey fun v' hv' => ?_
    have hdata : w.heap.isData v' = true := (Option.mem_filter_iff.mp hv').2
    rw [Heap.isData, hraises.grows.get_of_ne_nothing, ← Heap.isData, hdata]
    intro hnothing
    rw [Heap.isData, hnothing] at hdata
    cases hdata

end

/-! ### The two ends of a catch -/

/-- What counts as the value of `ERRACT` is kept for the end of the catch. -/
theorem beginCatch_apply (w : World) :
    beginCatch w = .ok ((w.frames.get? "ERRACT").getD Ref.nothing,
      if w.heap.isData ((w.frames.get? "ERRACT").getD Ref.nothing) then
        { w with frames := w.frames.set "ERRACT" Ref.nothing } else w) := by
  rw [beginCatch, Run.get_bind]
  dsimp only
  split <;> rfl

/-- A catch ends, and whatever it came to its value of `ERRACT` is assigned. -/
theorem exists_endCatch (stash tag node t : Ref) (w : World) :
    ∃ r w', endCatch stash tag node t w = .ok (r, w') ∧
      w'.frames = if w.heap.isData stash then w.frames.set "ERRACT" stash else w.frames := by
  rw [endCatch, Run.heap_bind]
  by_cases hdata : w.heap.isData stash = true
  all_goals
    simp only [hdata, if_true, Bool.false_eq_true, if_false]
    try rw [Run.modifyFrames_bind]
    cases (w.heap.get t).error? with
    | none => exact ⟨_, _, rfl, rfl⟩
    | some e =>
      dsimp only
      split
      · exact ⟨_, _, rfl, rfl⟩
      · split <;> exact ⟨_, _, rfl, rfl⟩

/-- The call that puts `ERRACT` aside. -/
theorem eq_of_runInstr_beginCatch {re : Reenter} {pins : Pins} {code : Linked} {block : Int}
    {regs regs' : Array Value} {dst : Reg} {w w' : World}
    (hrun : runInstr re pins code block regs (.call (some dst) .beginCatch []) w = .ok (regs', w')) :
    ∃ stash, beginCatch w = .ok (stash, w') ∧ regs' = writeReg regs dst (.datum stash) := by
  obtain ⟨stash, w₁, hbegin⟩ : ∃ stash w₁, beginCatch w = .ok (stash, w₁) :=
    ⟨_, _, beginCatch_apply w⟩
  have hcall : callHelper re (.registers regs :: pins) .beginCatch [] w = .ok (.datum stash, w₁) :=
    map_datum_apply hbegin
  simp only [runInstr, List.map_nil, bind, StateT.bind, Except.bind, hcall] at hrun
  cases hrun
  exact ⟨stash, hbegin, rfl⟩

/-! ### Calls of a statement's own -/

/-- A statement on its own has come to a call of its own, not of its inputs: the result goes to a
register that the code of the inputs does not have. The inputs have their values, and the call its
arguments; `held` is what is held on to meanwhile. -/
inductive Node.Calls (re : Reenter) (h : Heap) (pins : Pins) (w : World) :
    Node → List Value → Helper → List Value → Pins → World → Prop
  | intro {head : NodeHead} {inputs : List Node} {name : String} {routine : Routine} {code : Linked}
      {rs : List Reg} {d : Draft} {c : Config} {dst : Reg} {helper : Helper} {args : List Reg}
      {rest : List Instr}
      (hroutine : soloRoutine h name (.call head inputs) = .ok routine)
      (hlink : routine.link .machine = .ok code)
      (hfault : arityFault? h head inputs.length = none)
      (hinputs : (lowerArguments h head inputs).run {} = (.ok rs, d))
      (hreaches : Machine.Reaches re (.constants code.constants :: pins) code 0
        (Machine.start code w) c)
      (hnext : c.rest = .call (some dst) helper args :: rest) (hown : d.types.size ≤ dst.index) :
      Calls re h pins w (.call head inputs) (rs.map (readReg c.regs)) helper
        (args.map (readReg c.regs)) (.registers c.regs :: .constants code.constants :: pins) c.world

/-- Where the code of a statement makes a call of its own. -/
structure Node.OwnCall (re : Reenter) (h : Heap) (pins : Pins) (w : World) (head : NodeHead)
    (inputs : List Node) (values : List Value) (helper : Helper) (args : List Value) (held : Pins)
    (w₁ : World) where
  name : String
  routine : Routine
  code : Linked
  hroutine : soloRoutine h name (.call head inputs) = .ok routine
  hlink : routine.link .machine = .ok code
  hfault : arityFault? h head inputs.length = none
  solo : SoloStage h (.call head inputs) re pins code
  rs : List Reg
  draft : Draft
  hinputs : (lowerArguments h head inputs).run {} = (.ok rs, draft)
  emits : (emitNode h head rs).run draft = (.ok solo.reg, solo.draft)
  label : Label
  index : Nat
  dst : Reg
  argRegs : List Reg
  regs : Array Value
  stands : solo.draft.At label index (.call (some dst) helper argRegs)
  fresh : ¬ draft.At label index (.call (some dst) helper argRegs)
  size : regs.size = solo.stage.final.types.size
  inputs_lt : ∀ r ∈ rs, r.index < draft.types.size
  leads : solo.stage.Leads (solo.stage.here {} w (initialRegisters code.types))
    (solo.stage.inside label index w₁ regs)
  values_eq : values = rs.map (readReg regs)
  args_eq : args = argRegs.map (readReg regs)
  held_eq : held = .registers regs :: solo.stage.pins

section

variable {re re' : Reenter} {h : Heap} {pins held : Pins} {w w₁ w₂ : World} {head : NodeHead}
  {inputs : List Node} {node : Node} {values args : List Value} {helper : Helper} {t : Ref}

/-- A statement gets what its own call comes to. -/
theorem Node.Calls.gets (hcalls : Node.Calls re h pins w node values helper args held w₁)
    (hreenters : helper.reenters = true)
    (hcall : callHelper re held helper args w₁ = .ok (.datum t, w₂)) :
    Node.Gets re h pins w node t w₂ := by
  cases hcalls with
  | intro hroutine hlink hfault hinputs hreaches hnext hown =>
    exact .intro hroutine hlink hinputs hreaches hnext hown hreenters hcall

/-- The call may be that of a list. -/
theorem Node.Calls.hasRun {list : Value}
    (hcalls : Node.Calls re h pins w node values .runList [list] held w₁) :
    Node.HasRun re h pins w node list.asDatum held w₁ := by
  generalize hargs : [list] = args at hcalls
  cases hcalls with
  | intro hroutine hlink hfault hinputs hreaches hnext hown =>
    obtain ⟨r, rfl, rfl⟩ := List.map_eq_singleton_iff.mp hargs.symm
    exact .intro hroutine hlink hinputs hreaches hnext hown

theorem Node.Calls.changes [re.Changes]
    (hcalls : Node.Calls re h pins w node values helper args held w₁) : w.Changes w₁ := by
  cases hcalls with
  | intro _ _ _ _ hreaches => exact hreaches.changes

/-- The call stands in the code of the statement, behind that of the inputs. -/
theorem Node.Calls.exists_ownCall
    (hcalls : Node.Calls re h pins w (.call head inputs) values helper args held w₁)
    (hbuilt : (Node.call head inputs).Built h)
    (hopen : head.returns = .nothing ∨ head.returns = .datumOrNothing)
    (hspecial : head.generator.isSpecial = false) (hinputs : ∀ input ∈ inputs, input.Built h) :
    Nonempty (Node.OwnCall re h pins w head inputs values helper args held w₁) := by
  cases hcalls with
  | @intro _ _ name routine code rs d c dst helper argRegs rest hroutine hlink hfault hrun hreaches
      hnext hown =>
  obtain ⟨routine', code', hroutine', hlink', ⟨s⟩⟩ := exists_soloStage hbuilt re pins name
  obtain rfl : routine = routine' := Except.ok.inj (hroutine.symm.trans hroutine')
  obtain rfl : code = code' := Except.ok.inj (hlink.symm.trans hlink')
  have hleads := s.leads_iff_reaches.mpr hreaches
  obtain ⟨l, k, hat, hnot, hsize, hinside⟩ := s.exists_at hinputs hrun hleads hnext hown
  obtain ⟨rs', d', hrun', hlt, -⟩ := @exists_lowerArguments h head inputs hinputs
  obtain ⟨rfl, rfl⟩ : rs = rs' ∧ d = d' := by
    rw [hrun, Prod.mk.injEq, Except.ok.injEq] at hrun'
    exact hrun'
  exact ⟨{ name, routine, code, hroutine, hlink, hfault, solo := s, rs, draft := d, hinputs := hrun
           emits := s.run_emitNode hbuilt hopen hfault hspecial hrun
           label := l, index := k, dst, argRegs, regs := c.regs, stands := hat, fresh := hnot
           size := hsize, inputs_lt := hlt, leads := hinside ▸ hleads, values_eq := rfl
           args_eq := rfl, held_eq := by rw [s.pins_eq] }⟩

end

/-! ### The code of `CATCH` and `THROW` -/

namespace Emit

/-- The code of `CATCH` in front of its list: the value of `ERRACT` is put aside. -/
def openCatch (who : Ref) (list : Reg) : Emit (Reg × Reg) := do
  let list ← runnable who list
  let stash ← call .beginCatch []
  return (list, stash)

/-- The code of `CATCH` behind its list: what that came to is looked at. -/
def closeCatch (node : Ref) (tag stash result : Reg) : Emit Reg := do
  let self ← const node
  let out ← call .endCatch [stash, tag, self, result]
  passToken out
  return out

/-- The register that the value of `ERRACT` is put aside in. -/
def stashReg (who : Ref) (list : Reg) (d : Draft) : Reg :=
  (openCatch who list d).1.2

instance (who : Ref) (list : Reg) : Grows (openCatch who list) := by
  unfold openCatch
  infer_instance

instance (who : Ref) (list : Reg) : Quiet (openCatch who list) := by
  unfold openCatch
  infer_instance

instance (node : Ref) (tag stash result : Reg) : Grows (closeCatch node tag stash result) := by
  unfold closeCatch
  infer_instance

instance (node : Ref) (tag stash result : Reg) : Quiet (closeCatch node tag stash result) := by
  unfold closeCatch
  infer_instance

end Emit

namespace Stage

variable {s : Stage} {d : Draft} {l : Label} {k : Nat} {dst : Option Reg} {helper : Helper}
  {args : List Reg} {w w' : World} {regs : Array Value} {t : Ref}

/-- A run that stands before the one call that was added goes on with what was added after it. -/
theorem runs_own_call {α β : Type} {before : Emit α} {made : Helper} {argsOf : α → List Reg}
    {after : α → Reg → Emit β} [Emit.Grows before] [∀ x r, Emit.Grows (after x r)]
    (hret : made.signature.ret.getD .datum = .datum)
    (hbefore : (before d).2.At l k (.call dst helper args) → d.At l k (.call dst helper args))
    (hafter : ∀ x r d', (after x r d').2.At l k (.call dst helper args) →
      d'.At l k (.call dst helper args))
    (hat : ((before >>= fun x => Emit.call made (argsOf x) >>= after x) d).2.At l k
      (.call dst helper args))
    (hnot : ¬ d.At l k (.call dst helper args)) (hsize : regs.size = s.final.types.size)
    (hcall : callHelper s.re (.registers regs :: s.pins) helper (args.map (readReg regs)) w =
      .ok (.datum t, w'))
    {Q : β → Draft → Machine.Outcome → Prop}
    (h : ∀ r d₂ regs', Keeps (before d).2 regs d₂ regs' → Carries d₂ regs' r (.datum t) →
      s.Runs (after (before d).1 r) d₂ (s.here d₂ w' regs') Q) :
    s.Runs (before >>= fun x => Emit.call made (argsOf x) >>= after x) d (s.inside l k w regs) Q := by
  have hat₁ := hafter _ _ _ hat
  have hnot₁ : ¬ (before d).2.At l k (.call dst helper args) := fun hat₂ => hnot (hbefore hat₂)
  have hruns : s.Runs (Emit.call made (argsOf (before d).1) >>= after (before d).1) (before d).2
      (s.inside l k w regs) Q :=
    .bind (runs_call_at hret hat₁ hnot₁ hsize hcall h)
  exact hruns

/-- Where a run stands before an instruction that is in the code. -/
theorem exists_inside {i : Instr} (hwithin : d.Within s.final) (hat : d.At l k i) (w : World)
    (regs : Array Value) :
    ∃ rest, s.inside l k w regs = .running ⟨w, regs, s.place l, i :: rest⟩ := by
  obtain ⟨body, exit, hsection, hk⟩ := hat
  obtain ⟨b, hb, hbegins, -⟩ := exists_section hwithin hsection
  refine ⟨b.body.drop (k + 1), ?_⟩
  rw [inside, bodyAt, hb, Option.map_some, Option.getD_some, Twins.drop_of_prefix hbegins hk]

/-- The code of `CATCH` up to the call of its list, and from there on. -/
theorem catching_eq {who node : Ref} {a b : Reg} : Emit.catching who node a b =
    (Emit.openCatch who b >>= fun x => Emit.call .runList [x.1] >>= Emit.closeCatch node a x.2) :=
  rfl

/-- What `CATCH` came to is returned if it is a token, and else it is the value. -/
theorem runs_closeCatch {node r : Ref} {a stash result : Reg} (ha : a.index < d.types.size)
    (hstash : stash.index < d.types.size) (hsize : regs.size = s.final.types.size)
    (hresult : Carries d regs result (.datum t))
    (hend : endCatch (readReg regs stash).asDatum (readReg regs a).asDatum node t w = .ok (r, w')) :
    s.Runs (Emit.closeCatch node a stash result) d (s.here d w regs) fun out d' o =>
      (w'.heap.isFlow r = true → o = .returned r w') ∧
        (w'.heap.isFlow r = false → ∃ regs', o = s.here d' w' regs' ∧
          (readReg regs' out).asDatum = r) := by
  refine .bind (runs_const hsize fun self d₁ regs₁ hkeeps₁ hself => ?_)
  have hmade : callHelper s.re (.registers regs₁ :: s.pins) .endCatch
      ([stash, a, self, result].map (readReg regs₁)) w = .ok (.datum r, w') := by
    simp only [List.map_cons, List.map_nil, hself.reads, (hresult.keep hkeeps₁).reads,
      hkeeps₁.kept a ha, hkeeps₁.kept stash hstash]
    exact map_datum_apply hend
  have hrun : ∀ dst, runInstr s.re s.pins s.code s.block regs₁
      (.call (some dst) .endCatch [stash, a, self, result]) w =
        .ok (writeReg regs₁ dst (.datum r), w') := by
    intro dst
    simp only [runInstr, bind, StateT.bind, Except.bind, hmade]
    rfl
  refine .bind (runs_load (v := .datum r) (hkeeps₁.size.trans hsize) rfl hrun
    fun out d₂ regs₂ hkeeps₂ hout => ?_)
  refine .bind (runs_passToken ((hkeeps₁.trans hkeeps₂).size.trans hsize) hout
    (fun hno d₃ regs₃ hkeeps₃ => .pure ⟨fun hyes => ?_, fun _ => ⟨regs₃, rfl, ?_⟩⟩)
    fun hyes d₃ => .pure ⟨fun _ => rfl, fun hno => ?_⟩)
  · rw [hno] at hyes
    cases hyes
  · rw [(hout.keep hkeeps₃).reads]
    rfl
  · rw [hno] at hyes
    cases hyes

theorem stashReg_lt (who : Ref) (b : Reg) (d : Draft) :
    (Emit.stashReg who b d).index < (Emit.openCatch who b d).2.types.size := by
  show _ < ((Emit.runnable who b d).2.types.push Ty.datum).size
  rw [Array.size_push]
  exact Nat.lt_succ_self _

theorem le_stashReg (who : Ref) (b : Reg) (d : Draft) :
    d.types.size ≤ (Emit.stashReg who b d).index := by
  show _ ≤ (Emit.runnable who b d).2.types.size
  simpa using (Emit.Grows.types_prefix (Emit.runnable who b) d).length_le

/-- **The code of `CATCH`**, once its list came to something: it is looked at, and returned or left
as the value. -/
theorem runs_catching {who node r : Ref} {a b : Reg} {w'' : World} (ha : a.index < d.types.size)
    (hreenters : helper.reenters = true)
    (hat : (Emit.catching who node a b d).2.At l k (.call dst helper args))
    (hnot : ¬ d.At l k (.call dst helper args)) (hsize : regs.size = s.final.types.size)
    (hcall : callHelper s.re (.registers regs :: s.pins) helper (args.map (readReg regs)) w =
      .ok (.datum t, w'))
    (hend : endCatch (readReg regs (Emit.stashReg who b d)).asDatum (readReg regs a).asDatum node t
      w' = .ok (r, w'')) :
    s.Runs (Emit.catching who node a b) d (s.inside l k w regs) fun out d' o =>
      (w''.heap.isFlow r = true → o = .returned r w'') ∧
        (w''.heap.isFlow r = false → ∃ regs', o = s.here d' w'' regs' ∧
          (readReg regs' out).asDatum = r) := by
  have hle : d.types.size ≤ (Emit.openCatch who b d).2.types.size := by
    simpa using (Emit.Grows.types_prefix (Emit.openCatch who b) d).length_le
  have hlt := stashReg_lt who b d
  rw [catching_eq] at hat ⊢
  refine runs_own_call rfl (Emit.Quiet.quiet hreenters) (fun x r d' => Emit.Quiet.quiet hreenters) hat
    hnot hsize hcall fun result d₂ regs₂ hkeeps hresult => ?_
  have hgrown := hkeeps.types_size
  refine runs_closeCatch (ha.trans_le (hle.trans hgrown)) (hlt.trans_le hgrown)
    (hkeeps.size.trans hsize) hresult ?_
  rw [hkeeps.kept a (ha.trans_le hle)]
  exact (congrArg (endCatch · _ _ _ _) (congrArg Value.asDatum (hkeeps.kept _ hlt))).trans hend

/-- The call of the list of a `CATCH` stands right behind the one that puts `ERRACT` aside. -/
theorem exists_at_beginCatch {who node : Ref} {a b : Reg} (hreenters : helper.reenters = true)
    (hat : (Emit.catching who node a b d).2.At l k (.call dst helper args))
    (hnot : ¬ d.At l k (.call dst helper args)) :
    ∃ k', k = k' + 1 ∧ (Emit.openCatch who b d).2.At l k'
      (.call (some (Emit.stashReg who b d)) .beginCatch []) := by
  rw [catching_eq] at hat
  let d₁ := (Emit.openCatch who b d).2
  have hcall : (Emit.instr (.call (some ⟨d₁.types.size⟩) .runList [(Emit.openCatch who b d).1.1])
      (Emit.freshReg .datum d₁).2).2.At l k (.call dst helper args) :=
    Emit.Quiet.quiet (m := Emit.closeCatch node a _ _) hreenters hat
  rcases Draft.at_instr hcall with hbefore | ⟨rfl, rfl, -⟩
  · exact absurd (Emit.Quiet.quiet hreenters (hbefore.congr (d := d₁) rfl rfl rfl)) hnot
  · let d₂ := (Emit.runnable who b d).2
    have hbody : d₁.body = d₂.body.push (.call (some (Emit.stashReg who b d)) .beginCatch []) := rfl
    refine ⟨d₂.body.size, ?_, d₁.body.toList, none, .opened, ?_⟩
    · show d₁.body.size = _
      rw [hbody, Array.size_push]
    · rw [hbody]
      simp

/-- The code of a constant only loads it. -/
theorem at_const {c : Ref} (h : (Emit.const c d).2.At l k (.call dst helper args)) :
    d.At l k (.call dst helper args) := by
  rcases Draft.at_instr h with h | ⟨-, -, h⟩
  · have hslot : (Emit.slot c d).2.At l k (.call dst helper args) := h.congr rfl rfl rfl
    unfold Emit.slot at hslot
    split at hslot
    · exact hslot
    · exact hslot.congr rfl rfl rfl
  · cases h

/-- **The code of `THROW`** returns the error that it makes. -/
theorem runs_throwing {node : Ref} {a : Reg} {value : Option Reg}
    (hat : (Emit.throwing node a value d).2.At l k (.call dst helper args))
    (hnot : ¬ d.At l k (.call dst helper args)) (hsize : regs.size = s.final.types.size)
    (hcall : callHelper s.re (.registers regs :: s.pins) helper (args.map (readReg regs)) w =
      .ok (.datum t, w')) :
    s.Runs (Emit.throwing node a value) d (s.inside l k w regs) fun _ _ o => o = .returned t w' := by
  have hcode : Emit.throwing node a value = (value.elim Emit.nothing pure >>= fun value =>
      Emit.call .throwTag [a, value] >>= fun token => do
        Emit.returnNow token
        Emit.const node) := by
    cases value <;> rfl
  rw [hcode] at hat ⊢
  have hgrows : Emit.Grows (value.elim Emit.nothing pure) := by
    cases value with
    | none => exact inferInstanceAs (Emit.Grows Emit.nothing)
    | some r => exact inferInstanceAs (Emit.Grows (pure r))
  refine runs_own_call rfl (fun hbefore => ?_) (fun x r d' hafter => ?_) hat hnot hsize hcall
    fun token d₂ regs₂ _ htoken => ?_
  · cases value with
    | some value => exact hbefore
    | none => exact at_const hbefore
  · have hreturn : (Emit.returnNow r d').2.At l k (.call dst helper args) := at_const hafter
    exact (Draft.at_endBlock hreturn).congr rfl rfl rfl
  · refine .bind (runs_returnNow fun d₃ => .skip fun _ d₄ _ => ?_)
    rw [htoken.reads]
    rfl

end Stage

/-! ### The statements -/

section

variable {re : Reenter} {h : Heap} {pins held : Pins} {w w₁ w₂ : World} {head : NodeHead}
  {inputs : List Node} {t : Ref} {tag : Value} {values : List Value}

private theorem Primitive.table_throwing : ∀ row ∈ Primitive.table, row.generator = .throwing →
    row.returns = .nothing := by
  decide +kernel

/-- `THROW` has no value, and its inputs are built. -/
theorem Node.Built.of_throwing (hbuilt : (Node.call head inputs).Built h)
    (hgenerator : head.generator = .throwing) :
    head.returns = .nothing ∧ ∀ input ∈ inputs, input.Built h := by
  cases hbuilt with
  | primitive name row hname hrow hrowGenerator hreturns hinputs =>
    have hrow' := Primitive.table_throwing row (Primitive.mem_of_find? hrow)
      (hrowGenerator ▸ hgenerator)
    exact ⟨hreturns.trans hrow', hinputs⟩
  | literal _ hother | valueOf _ hother | procedure hother =>
    rw [hgenerator] at hother
    cases hother

/-- **`THROW` leaves with the error it makes**, or is done with it. -/
theorem Node.Calls.hands_of_throw (hbuilt : (Node.call head inputs).Built h)
    (hgenerator : head.generator = .throwing) {value : Value}
    (hcalls : Node.Calls re h pins w (.call head inputs) values .throwTag [tag, value] held w₁)
    (hthrow : throwTag tag.asDatum (some value.asDatum) w₁ = .ok (t, w₂)) :
    (Node.call head inputs).Hands re h pins w t w₂ := by
  obtain ⟨hnothing, hinputs⟩ := hbuilt.of_throwing hgenerator
  obtain ⟨c⟩ := hcalls.exists_ownCall hbuilt (.inl hnothing) (by rw [hgenerator]; rfl) hinputs
  have hcall : callHelper c.solo.stage.re (.registers c.regs :: c.solo.stage.pins) .throwTag
      (c.argRegs.map (readReg c.regs)) w₁ = .ok (.datum t, w₂) := by
    rw [← c.args_eq]
    exact map_datum_apply hthrow
  obtain ⟨a, value, hemit⟩ : ∃ a value, Emit.throwing head.ref a value c.draft =
      (c.solo.reg, c.solo.draft) := by
    have hemits := c.emits
    obtain ⟨ref, id, name, generator, returns⟩ := head
    cases hgenerator
    rcases hrs : c.rs with _ | ⟨a, rest⟩ <;> rw [hrs] at hemits
    · cases hemits
    · exact ⟨a, rest.head?, Lower.of_run_lift hemits⟩
  have hruns := Stage.runs_throwing (by rw [hemit]; exact c.stands) c.fresh c.size hcall
  obtain ⟨_, hleads, rfl⟩ := hruns (by rw [hemit]; exact c.solo.within)
  exact c.solo.hands_of_returned c.hroutine c.hlink (c.leads.trans hleads)

/-- The code of a statement that is a `CATCH`, and the register of its tag. -/
theorem Node.OwnCall.exists_catching {args : List Value} {helper : Helper}
    (c : Node.OwnCall re h pins w head inputs (tag :: values) helper args held w₁)
    (hgenerator : head.generator = .catching) :
    ∃ a b, a.index < c.draft.types.size ∧ readReg c.regs a = tag ∧
      Emit.catching head.name head.ref a b c.draft = (c.solo.reg, c.solo.draft) := by
  have hemits := c.emits
  have hvalues := c.values_eq
  have hlt := c.inputs_lt
  obtain ⟨ref, id, name, generator, returns⟩ := head
  cases hgenerator
  rcases hrs : c.rs with _ | ⟨a, _ | ⟨b, rest⟩⟩ <;> rw [hrs] at hemits hvalues hlt
  · cases hvalues
  · cases hemits
  · exact ⟨a, b, hlt a List.mem_cons_self, (List.cons.inj hvalues).1.symm,
      Lower.of_run_lift hemits⟩

/-- A statement on its own ends with a result: it hands it on if it is a token, and else it is done
with it. -/
def Node.EndsWith (re : Reenter) (h : Heap) (pins : Pins) (node : Node) (w : World) (r : Ref)
    (w' : World) : Prop :=
  if w'.heap.isFlow r then node.Hands re h pins w r w'
  else ∃ regs, node.Ends re h pins w (.done r regs w')

/-- Right before the call of its list a `CATCH` has put `ERRACT` aside, by a call of its own. -/
theorem Node.OwnCall.exists_begun {list : Value}
    (c : Node.OwnCall re h pins w head inputs (tag :: values) .runList [list] held w₁) {a b : Reg}
    (hemit : Emit.catching head.name head.ref a b c.draft = (c.solo.reg, c.solo.draft)) :
    ∃ stash held₀ w₀,
      Node.Calls re h pins w (.call head inputs) (tag :: values) .beginCatch [] held₀ w₀ ∧
      beginCatch w₀ = .ok (stash, w₁) ∧
      readReg c.regs (Emit.stashReg head.name b c.draft) = .datum stash := by
  have hcode : (Emit.catching head.name head.ref a b c.draft).2 = c.solo.draft := by rw [hemit]
  have hwithin : (Emit.openCatch head.name b c.draft).2.Within c.solo.stage.final := by
    let x := (Emit.openCatch head.name b c.draft).1
    refine Emit.Grows.within (m := Emit.call .runList [x.1] >>= Emit.closeCatch head.ref a x.2) ?_
    exact (congrArg (Draft.Within · _) hcode).mpr c.solo.within
  obtain ⟨k, hk, hat⟩ := Stage.exists_at_beginCatch rfl (hcode ▸ c.stands) c.fresh
  obtain ⟨w₀, regs₀, hsize₀, hleads₀, hrun⟩ := c.solo.exists_before hwithin hat (hk ▸ c.leads)
  obtain ⟨stash, hbegin, hregs⟩ := eq_of_runInstr_beginCatch hrun
  have hle := Stage.le_stashReg head.name b c.draft
  have hlt := (Stage.stashReg_lt head.name b c.draft).trans_le hwithin.types_size_le
  -- the inputs are as they were
  have hvalues : c.rs.map (readReg regs₀) = tag :: values := by
    refine Eq.trans (List.map_congr_left fun r hr => ?_) c.values_eq.symm
    have hr := c.inputs_lt r hr
    rw [hregs, readReg_writeReg_of_ne (by omega)]
  obtain ⟨rest, hinside⟩ := Stage.exists_inside hwithin hat w₀ regs₀
  rw [hinside] at hleads₀
  have hcalls := Node.Calls.intro c.hroutine c.hlink c.hfault c.hinputs
    (c.solo.leads_iff_reaches.mp hleads₀) rfl hle
  rw [hvalues] at hcalls
  refine ⟨stash, _, w₀, hcalls, hbegin, ?_⟩
  rw [hregs, readReg_writeReg_self (hsize₀ ▸ hlt)]

/-- **`CATCH` from its beginning to its end.** Before its list is run the value of `ERRACT` was put
aside, by a call of the same statement, and whatever the list comes to, the statement ends with what
`endCatch` makes of it. -/
theorem Node.Calls.exists_catch (hbuilt : (Node.call head inputs).Built h)
    (hgenerator : head.generator = .catching) {list : Value}
    (hcalls : Node.Calls re h pins w (.call head inputs) (tag :: values) .runList [list] held w₁) :
    ∃ stash held₀ w₀,
      Node.Calls re h pins w (.call head inputs) (tag :: values) .beginCatch [] held₀ w₀ ∧
      beginCatch w₀ = .ok (stash, w₁) ∧
      ∀ t w₂ r w', re.list held list.asDatum w₁ = .ok (t, w₂) →
        endCatch stash tag.asDatum head.ref t w₂ = .ok (r, w') →
          (Node.call head inputs).EndsWith re h pins w r w' := by
  have hruns : head.generator.runsCode = true := by rw [hgenerator]; rfl
  obtain ⟨hopen, hinputs⟩ := hbuilt.of_runsCode hruns
  obtain ⟨c⟩ := hcalls.exists_ownCall hbuilt hopen (by rw [hgenerator]; rfl) hinputs
  obtain ⟨a, b, ha, htag, hemit⟩ := c.exists_catching hgenerator
  -- the register of the stash is written before the list is run, and read when it is over
  obtain ⟨stash, held₀, w₀, hcalls₀, hbegin, hstash⟩ := c.exists_begun hemit
  refine ⟨stash, held₀, w₀, hcalls₀, hbegin, fun t w₂ r w' hlist hend => ?_⟩
  have hcall : callHelper c.solo.stage.re (.registers c.regs :: c.solo.stage.pins) .runList
      (c.argRegs.map (readReg c.regs)) w₁ = .ok (.datum t, w₂) := by
    rw [← c.args_eq, ← c.held_eq, c.solo.re_eq]
    exact map_datum_apply hlist
  have hstands := c.stands
  rw [← show _ = c.solo.draft from congrArg Prod.snd hemit] at hstands
  obtain ⟨o, hleads, htoken, hvalue⟩ := Stage.runs_catching ha rfl hstands c.fresh c.size hcall
    (r := r) (by rw [hstash, htag]; exact hend) (by rw [hemit]; exact c.solo.within)
  rw [hemit] at hvalue
  unfold Node.EndsWith
  split
  · next hflow =>
    rw [htoken hflow] at hleads
    exact c.solo.hands_of_returned c.hroutine c.hlink (c.leads.trans hleads)
  · next hflow =>
    obtain ⟨regs, rfl, hread⟩ := hvalue (by simpa using hflow)
    exact ⟨regs, c.name, c.routine, c.code, c.hroutine, c.hlink,
      c.solo.ends_done_iff.mpr ⟨c.leads.trans hleads, hread.symm⟩⟩

/-- **`CATCH` takes an error by its key.** If the list of a `CATCH` came to an error, the statement is
done with the value of the error, or hands the very same error on. -/
theorem Node.Calls.ends_of_catch (hbuilt : (Node.call head inputs).Built h)
    (hgenerator : head.generator = .catching) {list : Value}
    (hcalls : Node.Calls re h pins w (.call head inputs) (tag :: values) .runList [list] held w₁)
    (hlist : re.list held list.asDatum w₁ = .ok (t, w₂)) {key : String} {value : Option Ref}
    (hraised : w₂.Raised t key value)
    (hnode : w₂.heap.keyOf tag.asDatum = key → w₂.heap.isFlow head.ref = false) :
    ∃ w₃, w₂.Restores w₃ ∧
      if w₂.heap.keyOf tag.asDatum = key then
        ∃ regs, (Node.call head inputs).Ends re h pins w
          (.done (value.getD head.ref) regs (w₃.caught key))
      else (Node.call head inputs).Hands re h pins w t w₃ := by
  obtain ⟨stash, _, _, -, -, hends⟩ := hcalls.exists_catch hbuilt hgenerator
  obtain ⟨w₃, hrestores, hend⟩ := endCatch_error hraised stash tag.asDatum head.ref
  refine ⟨w₃, hrestores, ?_⟩
  by_cases hkey : w₂.heap.keyOf tag.asDatum = key
  · -- it is taken, and its value is no token
    rw [if_pos hkey] at hend ⊢
    have hflow : (w₃.caught key).heap.isFlow (value.getD head.ref) = false := by
      rw [World.caught_heap, hrestores.heap_eq]
      cases value with
      | none => exact hnode hkey
      | some v => exact Object.isFlow_of_isData (hraised.isData rfl)
    have hended := hends _ _ _ _ hlist hend
    rwa [Node.EndsWith, if_neg (by rw [hflow]; exact Bool.false_ne_true)]
      at hended
  · -- it is returned
    rw [if_neg hkey] at hend ⊢
    have hflow : w₃.heap.isFlow t = true := by
      rw [hrestores.heap_eq]
      exact hraised.isFlow
    have hended := hends _ _ _ _ hlist hend
    rwa [Node.EndsWith, if_pos hflow] at hended

end

end LogoEngine
