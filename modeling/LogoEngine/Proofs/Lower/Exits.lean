import LogoEngine.Proofs.Lower.Contents
import LogoEngine.Proofs.Lower.Handing

/-!
# `STOP` and `OUTPUT`

A way out of a procedure leaves its list with a token. `STOP` makes the token at once; `OUTPUT`
evaluates its input first, and the token carries the value. What `OUTPUT` evaluates is the input as
a statement on its own would be, up to the checks of its value.

Main statement: `Node.Exits.hands`.
-/

namespace LogoEngine

/-- The token of a way out, and the state in which it was just made. -/
def World.withReturn (w : World) (source : Ref) (value : Option Ref) : Ref × World :=
  let (token, heap) := w.heap.add (.ret source value)
  (token, { w with heap })

theorem World.get_withReturn (w : World) (source : Ref) (value : Option Ref) :
    (w.withReturn source value).2.heap.get (w.withReturn source value).1 = .ret source value := by
  simp [World.withReturn, Heap.add, Heap.get, Array.getD]

/-- A statement comes to make the token of a way out of `source`, with the given value. The call of
a procedure as an input is no value but a tail call. -/
inductive Node.Exits (re : Reenter) (h : Heap) (pins : Pins) (w : World) :
    Node → Ref → Option Ref → World → Prop
  | stop {head : NodeHead} (hgenerator : head.generator = .stop) :
      Exits re h pins w (.call head []) head.ref none w
  | output {head callee : NodeHead} {args : List Node} {name : String} {routine : Routine}
      {code : Linked} {v : Ref} {regs : Array Value} {w' : World}
      (hgenerator : head.generator = .output) (hcallee : callee.generator ≠ .execProcedure)
      (hreturns : callee.returns ≠ .nothing)
      (hroutine : soloRoutine h name (.call head [.call callee args]) = .ok routine)
      (hlink : routine.link .machine = .ok code)
      (hends : (Node.call callee args).Ends re h (.constants code.constants :: pins) w
        (.done v regs w'))
      (hdata : w'.heap.isData v = true) :
      Exits re h pins w (.call head [.call callee args]) head.ref (some v) w'

section

variable {h : Heap} {node : Node} {head callee : NodeHead} {args : List Node} {d : Draft}

/-! ### The value of an input -/

/-- Only literals look at what is asked of them, and then only at numbers and truth values. -/
theorem lowerNode_datum (h : Heap) (node : Node) :
    lowerNode h node .datum = lowerNode h node .datumOrNothing := by
  rw [lowerNode.eq_def, lowerNode.eq_def]
  cases node with
  | datum r => rfl
  | call head inputs =>
    dsimp only
    have hliteral : ∀ value, emitLiteral h value .datum = emitLiteral h value .datumOrNothing :=
      fun value => rfl
    simp only [hliteral]

/-- The code that makes sure that there is a value. -/
def ensured (who : Ref) (returns : Request) (value : Reg) : Emit Reg := do
  if returns = .datumOrNothing then
    Emit.passToken value
    Emit.requireValue who value
  else
    return value

instance (who : Ref) (returns : Request) (value : Reg) : Emit.Grows (ensured who returns value) := by
  unfold ensured
  infer_instance

/-- A cast of a value that must be there is the cast of one that may be there, and then it is made
sure that it is. -/
theorem cast_datum {raw : Reg} {ty : Ty} (who who' : Ref) {returns : Request}
    (hreturns : returns ≠ .nothing) (hraw : Declares d.types raw ty)
    (hty : returns = .datumOrNothing → ty = .datum) :
    Emit.cast raw who returns .datum d =
      (Emit.cast raw who' returns .datumOrNothing >>= ensured who returns) d := by
  rw [Emit.cast_run hraw]
  show _ = ensured who returns (Emit.cast raw who' returns .datumOrNothing d).1
    (Emit.cast raw who' returns .datumOrNothing d).2
  rw [Emit.cast_run hraw]
  cases ty with
  | datum => cases returns <;> first | rfl | exact absurd rfl hreturns
  | real | truth => cases returns <;> first | rfl | simp at hty

/-- The code of a way out with an input: that of the input on its own, the check that there is a
value, and then the token. -/
theorem lowerExit_output (hinput : (Node.call callee args).Built h)
    (hcallee : callee.generator ≠ .execProcedure) (hreturns : callee.returns ≠ .nothing)
    {self value : Reg} {d₁ d₂ : Draft} (hself : Emit.const head.ref d = (self, d₁))
    (hvalue : (lowerStatement h (.call callee args)).run d₁ = (.ok value, d₂)) :
    (lowerExit h head .datum [.call callee args]).run d =
      (liftM (ensured head.name callee.returns value >>= fun value =>
        Emit.leaveWith head.ref .returnToken [self, value]) : Lower Reg).run d₂ := by
  obtain ⟨raw, d', hraw, -, hdeclares, -⟩ := hinput.lowers .datumOrNothing d₁
  have hty : callee.returns = .datumOrNothing →
      (Node.call callee args).rawTy h .datumOrNothing = .datum :=
    fun hopen => hinput.rawTy_eq_datum (.inr hopen) _
  have hcast := cast_datum head.name (h.displayName callee.ref) hreturns hdeclares hty
  have hvalue' : Emit.cast raw (h.displayName callee.ref) callee.returns .datumOrNothing d' =
      (value, d₂) :=
    Lower.of_run_lift ((Lower.run_bind hraw).symm.trans hvalue)
  have hcast' : Emit.cast raw head.name callee.returns .datum d' =
      ensured head.name callee.returns value d₂ := by
    rw [hcast]
    show ensured head.name callee.returns (Emit.cast raw _ callee.returns .datumOrNothing d').1
      (Emit.cast raw _ callee.returns .datumOrNothing d').2 = _
    rw [hvalue']
  rw [lowerExit, lowerNode_datum]
  simp only [if_neg hcallee]
  have hconst : (liftM (Emit.const head.ref) : Lower Reg).run d = (.ok self, d₁) := by
    show (Except.ok (Emit.const head.ref d).1, (Emit.const head.ref d).2) = _
    rw [hself]
  refine (Lower.run_bind hconst).trans ?_
  refine (Lower.run_bind hraw).trans ?_
  refine (Lower.run_bind (m := liftM (Emit.cast raw head.name callee.returns .datum)) ?_).trans rfl
  exact congrArg (fun p => (Except.ok p.1, p.2)) hcast'

variable {s : Stage} {limit : Nat} {pins : Pins} {found : Array Value} {w : World} {value self : Reg}

/-- A new register may hold what is held anyway. -/
theorem Stage.Waits.load (hwaits : s.Waits limit pins d found) {d' : Draft} {dst : Reg} {v : Value}
    (hdst : d.types.size ≤ dst.index) (hnew : dst.index < d'.types.size)
    (hv : v.asDatum ∈ Pins.held s.pins) : s.Waits limit pins d' (writeReg found dst v) := by
  have hnothing : Ref.nothing ∈ Pins.held s.pins := List.mem_cons_self
  have hsize : (writeReg found dst v).size = found.size := by simp [writeReg]
  refine ⟨hsize.trans hwaits.size, fun r hr => ?_, fun r hr hlt => ?_, ?_⟩
  · rw [readReg_writeReg_of_ne (by omega)]
    exact hwaits.fresh r (by omega)
  · rw [readReg_writeReg_of_ne (by omega)]
    exact hwaits.initial r (by omega) hlt
  · refine hwaits.alike.trans fun c => ?_
    simp only [Pins.mem_held_cons, Twins.mem_references_registers, hsize]
    constructor
    · rintro (⟨r, hr, rfl⟩ | hc)
      · by_cases hsame : r.index = dst.index
        · rw [hwaits.fresh r (by omega)]
          exact .inr hnothing
        · exact .inl ⟨r, hr, by rw [readReg_writeReg_of_ne hsame]⟩
      · exact .inr hc
    · rintro (⟨r, hr, rfl⟩ | hc)
      · by_cases hsame : r.index = dst.index
        · obtain rfl : r = dst := by cases r; cases dst; simp_all
          rw [readReg_writeReg_self hr]
          exact .inr hv
        · exact .inl ⟨r, hr, by rw [readReg_writeReg_of_ne hsame]⟩
      · exact .inr hc

/-- A constant is loaded into a new register. -/
theorem Stage.Waits.runs_const (hwaits : s.Waits limit pins d found) (hproper : s.Proper) {c : Ref}
    {Q : Reg → Draft → Machine.Outcome → Prop}
    (hQ : ∀ r d' found', s.Waits limit pins d' found' → Carries d' found' r (.datum c) →
      Q r d' (s.here d' w found')) :
    s.Runs (Emit.const c) d (s.here d w found) Q := by
  refine .bind (Stage.runs_slot fun index d₁ htypes hconst => ?_)
  refine .bind (Stage.runs_freshReg fun r d₂ hle _ hr => .bind (.within fun hw => ?_))
  have hheld : c ∈ Pins.held s.pins := by
    rw [← hconst, Array.getD_eq_getD_getElem?]
    cases hget : s.code.constants[index]? with
    | none => exact List.mem_cons_self
    | some c' => exact hproper.constants c' (Array.mem_of_getElem? hget)
  have hrun : runInstr s.re s.pins s.code s.block found (.const r index) w =
      .ok (writeReg found r (.datum c), w) := by
    simp only [runInstr, instrValue, hconst]
    rfl
  rw [htypes] at hle
  refine Stage.runs_instr hrun (.pure (hQ r _ _ (hwaits.load hle hr.lt_size hheld) ⟨hr, ?_⟩))
  exact readReg_writeReg_self (by rw [hwaits.size]; exact (hr.mono hw.types).lt_size)

/-- The kind of a value is tested, and nothing else is touched. -/
theorem Stage.runs_hasTag (hsize : found.size = s.final.types.size) (value : Reg) (mask : Nat)
    {Q : Reg → Draft → Machine.Outcome → Prop}
    (hQ : ∀ r d' found', Keeps d found d' found' →
      Carries d' found' r (.truth ((w.heap.get (readReg found value).asDatum).hasTag mask)) →
      Q r d' (s.here d' w found')) :
    s.Runs (Emit.call (.hasTag mask) [value]) d (s.here d w found) Q :=
  Stage.runs_load hsize rfl (fun _ => rfl) hQ

/-- A value that is there is left as it is. -/
theorem Stage.runs_ensured (hsize : found.size = s.final.types.size)
    (hvalue : value.index < d.types.size)
    (hdata : w.heap.isData (readReg found value).asDatum = true) (who : Ref) (returns : Request) :
    s.Runs (ensured who returns value) d (s.here d w found) fun r d' o =>
      ∃ found', o = s.here d' w found' ∧ Keeps d found d' found' ∧ r = value := by
  unfold ensured
  split
  · have hflow := Object.isFlow_of_isData hdata
    refine .bind (.bind (Stage.runs_hasTag hsize value flowMask fun isFlow d₁ found₁ hkeeps₁ hr₁ => ?_))
    refine Stage.runs_returnWhen hr₁.reads (fun _ d₂ hle₂ => ?_) fun hyes => ?_
    · have hsame : readReg found₁ value = readReg found value := hkeeps₁.kept value hvalue
      refine .bind (Stage.runs_hasTag (hkeeps₁.size.trans hsize) value dataMask
        fun isData d₃ found₃ hkeeps₃ hr₃ => ?_)
      have hyes : (w.heap.get (readReg found value).asDatum).hasTag dataMask = true := hdata
      rw [hsame, hyes] at hr₃
      have hkeeps := (hkeeps₁.grow hle₂).trans hkeeps₃
      refine .bind (Stage.runs_not (hkeeps.size.trans hsize) hr₃ fun missing d₄ found₄ hkeeps₄ hr₄ => ?_)
      refine .bind (Stage.runs_returnWhen hr₄.reads (fun _ d₅ hle₅ => ?_) nofun)
      exact .pure ⟨found₄, rfl, (hkeeps.trans hkeeps₄).grow hle₅, rfl⟩
    · rw [show (w.heap.get (readReg found value).asDatum).hasTag flowMask = false from hflow] at hyes
      cases hyes
  · exact .pure ⟨found, rfl, .refl, rfl⟩

/-- The token is made and returned. -/
theorem Stage.runs_leaveWith_return (hsize : found.size = s.final.types.size) {node source : Ref}
    (hself : (readReg found self).asDatum = source) :
    s.Runs (Emit.leaveWith node .returnToken [self, value]) d (s.here d w found) fun _ _ o =>
      ∀ v, (readReg found value).asDatum = v →
        o = .returned (w.withReturn source (if w.heap.isData v then some v else none)).1
          (w.withReturn source (if w.heap.isData v then some v else none)).2 := by
  have hcall : ∀ dst, runInstr s.re s.pins s.code s.block found
      (.call (some dst) .returnToken [self, value]) w =
        .ok (writeReg found dst (.datum (w.withReturn source
          (if w.heap.isData (readReg found value).asDatum then
            some (readReg found value).asDatum else none)).1),
          (w.withReturn source (if w.heap.isData (readReg found value).asDatum then
            some (readReg found value).asDatum else none)).2) := by
    intro dst
    rw [← hself]
    rfl
  refine .bind (Stage.runs_load (v := .datum _) hsize rfl hcall fun token d₁ found₁ _ hr => ?_)
  refine .bind (Stage.runs_returnNow fun d₂ => .skip fun _ _ _ v hv => ?_)
  rw [hr.reads, ← hv]
  rfl

private theorem Primitive.table_exits : ∀ row ∈ Primitive.table,
    (row.generator = .stop ∨ row.generator = .output) → row.returns = .nothing ∧
      row.minInputs = (if row.generator = .stop then 0 else 1) ∧ row.maxInputs = some 1 := by
  decide +kernel

/-- A way out has no value, and its inputs are built. -/
theorem Node.Built.of_exit {inputs : List Node} (hbuilt : (Node.call head inputs).Built h)
    (hexit : head.generator = .stop ∧ inputs = [] ∨
      head.generator = .output ∧ ∃ input, inputs = [input]) :
    head.returns = .nothing ∧ arityFault? h head inputs.length = none ∧
      ∀ input ∈ inputs, input.Built h := by
  have hgenerator' : head.generator = .stop ∨ head.generator = .output :=
    hexit.imp And.left And.left
  cases hbuilt with
  | primitive name row hname hrow hgenerator hreturns hinputs =>
    rw [hgenerator] at hgenerator' hexit
    obtain ⟨hnothing, hmin, hmax⟩ :=
      Primitive.table_exits row (Primitive.mem_of_find? hrow) hgenerator'
    refine ⟨hreturns.trans hnothing, arityFault?_eq_none hname hrow hgenerator ?_ ?_, hinputs⟩
    · rcases hexit with ⟨hstop, rfl⟩ | ⟨houtput, _, rfl⟩
      · simp [hmin, hstop]
      · simp [hmin, houtput]
    · intro bound hbound
      rw [hmax] at hbound
      cases hbound
      rcases hexit with ⟨-, rfl⟩ | ⟨-, _, rfl⟩ <;> simp
  | literal _ hgenerator | valueOf _ hgenerator | procedure hgenerator =>
    rw [hgenerator] at hgenerator'
    simp at hgenerator'

variable {re : Reenter} {source : Ref} {result : Option Ref} {w' : World}

/-- `STOP` makes its token at once. -/
private theorem Node.hands_stop (hbuilt : (Node.call head []).Built h)
    (hgenerator : head.generator = .stop) (hnothing : w.heap.isData Ref.nothing = false) :
    (Node.call head []).Hands re h pins w (w.withReturn head.ref none).1
      (w.withReturn head.ref none).2 := by
  obtain ⟨hreturns, hfault, -⟩ := hbuilt.of_exit (.inl ⟨hgenerator, rfl⟩)
  obtain ⟨routine, code, hroutine, hlink, ⟨t⟩⟩ := exists_soloStage hbuilt re pins ""
  refine t.hands_of_returned hroutine hlink ?_
  have hrun := t.solo.run
  have hasked : head.generator.exitRequest? = some .nothing := by rw [hgenerator]; rfl
  rw [lowerStatement_of_open hbuilt (.inl hreturns), (lowerNode_exit hfault hasked _).1,
    lowerExit] at hrun
  have hcode := Lower.of_run_lift (m := do
    let self ← Emit.const head.ref
    let value ← Emit.nothing
    Emit.leaveWith head.ref .returnToken [self, value]) hrun
  have hsize : (initialRegisters code.types).size = t.stage.final.types.size := by
    rw [← t.stage.types, t.code_eq]
    simp [initialRegisters]
  have hruns : t.stage.Runs (do
      let self ← Emit.const head.ref
      let value ← Emit.nothing
      Emit.leaveWith head.ref .returnToken [self, value]) {}
      (t.stage.here {} w (initialRegisters code.types)) fun _ _ o =>
        o = .returned (w.withReturn head.ref none).1 (w.withReturn head.ref none).2 := by
    refine .bind (Stage.runs_const hsize fun self d₁ regs₁ hkeeps₁ hself => ?_)
    have hsize₁ := hkeeps₁.size.trans hsize
    refine .bind (Stage.runs_const hsize₁ fun value d₂ regs₂ hkeeps₂ hvalue => ?_)
    have hself₂ : (readReg regs₂ self).asDatum = head.ref := by
      rw [(hself.keep hkeeps₂).reads]
      rfl
    refine (Stage.runs_leaveWith_return (hkeeps₂.size.trans hsize₁) hself₂).mono fun _ _ o ho => ?_
    have ho' := ho Ref.nothing (by rw [hvalue.reads]; rfl)
    rw [hnothing] at ho'
    exact ho'
  obtain ⟨o, hleads, rfl⟩ := hruns (by rw [hcode]; exact t.within)
  exact hleads

/-- **`STOP` and `OUTPUT` leave with their token**, or are done with it. -/
theorem Node.Exits.hands (hsteady : re.Steady) (hbuilt : node.Built h)
    (hnothing : w.heap.isData Ref.nothing = false)
    (hexits : node.Exits re h pins w source result w') :
    node.Hands re h pins w (w'.withReturn source result).1 (w'.withReturn source result).2 := by
  cases hexits with
  | stop hgenerator => exact Node.hands_stop hbuilt hgenerator hnothing
  | @output head callee args name routine code v regs _ hgenerator hcallee hreturns hroutine hlink
      hends hdata =>
    obtain ⟨hnone, hfault, hinputs⟩ := hbuilt.of_exit (.inr ⟨hgenerator, _, rfl⟩)
    have hinput := hinputs _ List.mem_cons_self
    obtain ⟨routine', code', hroutine', hlink', ⟨t⟩⟩ := exists_soloStage hbuilt re pins name
    obtain rfl : routine = routine' := Except.ok.inj (hroutine.symm.trans hroutine')
    obtain rfl : code = code' := Except.ok.inj (hlink.symm.trans hlink')
    refine t.hands_of_returned hroutine hlink ?_
    have hproper := t.proper hsteady
    -- the code: the constant, the input, and what is left
    generalize hconst : Emit.const head.ref {} = out
    obtain ⟨self, d₁⟩ := out
    obtain ⟨value, d₂, hvalue, hle, hdeclares, -⟩ := lowerStatement_spec hinput d₁
    have hrun := t.solo.run
    have hasked : head.generator.exitRequest? = some .datum := by rw [hgenerator]; rfl
    rw [lowerStatement_of_open hbuilt (.inl hnone), (lowerNode_exit hfault hasked _).1,
      lowerExit_output hinput hcallee hreturns hconst hvalue] at hrun
    have hcode := Lower.of_run_lift hrun
    have hwithin : d₂.Within t.stage.final :=
      Emit.Grows.within (m := ensured head.name callee.returns value >>= fun value =>
        Emit.leaveWith head.ref .returnToken [self, value]) (by rw [hcode]; exact t.within)
    -- the run: the constant is loaded, and then the input is done as on its own
    have hloads := (t.stage.waits_initial t.stage.final.types.size).runs_const (w := w) hproper
      (c := head.ref) (Q := fun r d o => ∃ found, o = t.stage.here d w found ∧
        t.stage.Waits t.stage.final.types.size t.stage.pins d found ∧
        Carries d found r (.datum head.ref))
      (fun r d' found' hwaits hr => ⟨found', rfl, hwaits, hr⟩)
    rw [Stage.Runs, hconst, t.code_eq] at hloads
    obtain ⟨_, hleads₁, found₁, rfl, hwaits₁, hself⟩ := hloads (hle _ hwithin)
    rw [t.pins_eq] at hwaits₁
    have hsize := hwithin.types_size_le
    obtain ⟨found₂, hleads₂, hwaits₂, hread, hkept⟩ :=
      hwaits₁.leads_of_done hproper hinput hwithin hsize hvalue (by rw [t.re_eq]; exact hends)
    have hself₂ : (readReg found₂ self).asDatum = head.ref := by
      rw [hkept _ hself.declares.lt_size, hself.reads]
      rfl
    have hruns : t.stage.Runs (ensured head.name callee.returns value >>= fun value =>
        Emit.leaveWith head.ref .returnToken [self, value]) d₂
        (t.stage.here d₂ w' found₂) fun _ _ o =>
          o = .returned (w'.withReturn head.ref (some v)).1 (w'.withReturn head.ref (some v)).2 := by
      refine .bind ((Stage.runs_ensured hwaits₂.size hdeclares.lt_size (by rw [hread]; exact hdata)
        _ _).mono ?_)
      rintro _ d₃ _ ⟨found₃, rfl, hkeeps, rfl⟩
      have hself₃ : (readReg found₃ self).asDatum = head.ref := by
        rw [hkeeps.kept _ (hself.declares.mono hle.types).lt_size, hself₂]
      refine (Stage.runs_leaveWith_return (hkeeps.size.trans hwaits₂.size) hself₃).mono
        fun _ _ o ho => ?_
      have ho' := ho v (by rw [hkeeps.kept _ hdeclares.lt_size, hread])
      rw [hdata] at ho'
      exact ho'
    obtain ⟨o, hleads₃, rfl⟩ := hruns (by rw [hcode]; exact t.within)
    exact hleads₁.trans (hleads₂.trans hleads₃)

end

end LogoEngine
