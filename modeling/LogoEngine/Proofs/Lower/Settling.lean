import LogoEngine.Proofs.Expression.Checks
import LogoEngine.Proofs.Lower.Statements

/-!
# What becomes of the value of a statement

Only the last statement of a parse may have a value. The code of any other one is that of the
statement on its own, followed by code that **settles** its value: a token is returned, data is
complained about, and without a value the run goes on.

Main statements: `lowerStatement_settled`, and `Stage.Waits.runs_settled`, which says what the code
that settles a value does.
-/

namespace LogoEngine

/-- Whether a node always has a value, so that as a statement it is complained about. -/
def Node.outputs (node : Node) : Bool :=
  node.returns != .nothing && node.returns != .datumOrNothing

/-- What becomes of the value of a statement that is not the last one: the run ends with a result,
or it goes on. -/
def Node.settle (node : Node) (value : Ref) : Run (Option Ref) := do
  let h ← Run.heap
  if node.outputs then some <$> raiseDontSay value
  else if h.isFlow value then return some value
  else if h.isData value then some <$> raiseDontSay value
  else return none

theorem Node.settle_apply (node : Node) (value : Ref) (w : World) :
    node.settle value w =
      if node.outputs then (some <$> raiseDontSay value) w
      else if w.heap.isFlow value then .ok (some value, w)
      else if w.heap.isData value then (some <$> raiseDontSay value) w
      else .ok (none, w) := by
  show (if node.outputs then _ else if w.heap.isFlow value then _ else
    if w.heap.isData value then _ else _ : Run (Option Ref)) w = _
  split
  · rfl
  split
  · rfl
  split <;> rfl

/-- The code that settles the value of a statement. -/
def settled (returns : Request) (value : Reg) : Emit Reg := do
  if returns = .nothing then
    return value
  else if returns = .datumOrNothing then
    Emit.passToken value
    Emit.requireNothing value
  else
    let error ← Emit.call .errDontSay [value]
    Emit.returnNow error
    return value

instance (returns : Request) (value : Reg) : Emit.Grows (settled returns value) := by
  unfold settled
  infer_instance

section

variable {h : Heap} {node : Node} {d : Draft}

/-! ### The code of a statement that is not the last -/

/-- Only literals look at what is asked of them, and then only at numbers and truth values. -/
theorem lowerNode_nothing (h : Heap) (node : Node) :
    lowerNode h node .nothing = lowerNode h node .datumOrNothing := by
  rw [lowerNode.eq_def, lowerNode.eq_def]
  cases node with
  | datum r => rfl
  | call head inputs =>
    dsimp only
    have hliteral : ∀ value, emitLiteral h value .nothing = emitLiteral h value .datumOrNothing :=
      fun value => rfl
    simp only [hliteral]

private theorem Primitive.table_open : ∀ row ∈ Primitive.table,
    (row.returns = .nothing ∨ row.returns = .datumOrNothing) →
      row.generator.ty = .datum ∧ row.generator.folds = false := by
  decide +kernel

private theorem Node.rawTy_of_ty {head : NodeHead} {inputs : List Node}
    (hliteral : head.generator ≠ .literal) (hfolds : head.generator.folds = false)
    (hty : head.generator.ty = .datum) (request : Request) :
    (Node.call head inputs).rawTy h request = .datum := by
  rw [Node.rawTy.eq_def]
  dsimp only
  cases arityFault? h head inputs.length with
  | some helper => rfl
  | none =>
    dsimp only
    split <;> first | exact hty | simp_all [Generator.folds]

/-- A node that may have no value leaves an object. -/
theorem Node.Built.rawTy_eq_datum (hbuilt : node.Built h)
    (hopen : node.returns = .nothing ∨ node.returns = .datumOrNothing) (request : Request) :
    node.rawTy h request = .datum := by
  cases hbuilt with
  | @primitive head inputs name row hname hrow hgenerator hreturns hinputs =>
    rw [Node.returns, hreturns] at hopen
    obtain ⟨hty, hfolds⟩ := Primitive.table_open row (Primitive.mem_of_find? hrow) hopen
    rw [← hgenerator] at hty hfolds
    have hliteral := (Primitive.find?_eq_some hrow).1.literal
    exact Node.rawTy_of_ty (hgenerator ▸ hliteral) hfolds hty request
  | literal value hgenerator hreturns | valueOf value hgenerator hreturns =>
    rw [Node.returns, hreturns] at hopen
    simp at hopen
  | procedure hgenerator hreturns hinputs =>
    exact Node.rawTy_of_ty (by simp [hgenerator]) (by simp [hgenerator, Generator.folds])
      (by simp [hgenerator, Generator.ty]) request

/-- A cast of a value that must not be left is the cast of one that may, and then the value is
settled. -/
theorem cast_nothing {raw : Reg} {ty : Ty} (who : Ref) (returns : Request)
    (hraw : Declares d.types raw ty)
    (hty : returns = .nothing ∨ returns = .datumOrNothing → ty = .datum) :
    Emit.cast raw who returns .nothing d =
      (Emit.cast raw who returns .datumOrNothing >>= settled returns) d := by
  show _ = settled returns (Emit.cast raw who returns .datumOrNothing d).1
    (Emit.cast raw who returns .datumOrNothing d).2
  rw [Emit.cast_run hraw, Emit.cast_run hraw]
  cases ty with
  | datum => cases returns <;> rfl
  | real | truth => cases returns <;> first | rfl | simp at hty

/-- **The code of a statement that is not the last** is its own code, and then its value is
settled. -/
theorem lowerStatement_settled (hbuilt : node.Built h) (d : Draft) :
    (do
      let raw ← lowerNode h node .nothing
      Emit.cast raw (h.displayName node.ref) node.returns .nothing : Lower Reg).run d =
    (do
      let value ← lowerStatement h node
      settled node.returns value : Lower Reg).run d := by
  obtain ⟨raw, d₁, hrun, -, hraw, -⟩ := hbuilt.lowers .datumOrNothing d
  rw [lowerNode_nothing]
  refine (Lower.run_bind hrun).trans ?_
  refine Eq.trans ?_ (Lower.run_bind (m := lowerStatement h node) (Lower.run_bind hrun)).symm
  have hcast := cast_nothing (h.displayName node.ref) node.returns hraw
    fun hopen => hbuilt.rawTy_eq_datum hopen _
  exact congrArg (fun p => (Except.ok p.1, p.2)) hcast

/-! ### What it does -/

variable {s : Stage} {limit : Nat} {pins : Pins} {found : Array Value} {w : World} {value : Reg}

/-- The run has come further, with no new objects in its registers. -/
theorem Stage.Waits.grow (hwaits : s.Waits limit pins d found) {d' : Draft}
    (htypes : d.types.toList <+: d'.types.toList) : s.Waits limit pins d' found := by
  have hle : d.types.size ≤ d'.types.size := by simpa using htypes.length_le
  exact ⟨hwaits.size, fun r hr => hwaits.fresh r (by omega),
    fun r hr => hwaits.initial r (by omega), hwaits.alike⟩

/-- A truth value takes the place of what is no object. -/
theorem Stage.Waits.assign (hwaits : s.Waits limit pins d found) {d' : Draft} {dst : Reg}
    (hle : d.types.size ≤ d'.types.size) (hold : (readReg found dst).asDatum = Ref.nothing)
    (hnew : dst.index < d'.types.size ∨ limit ≤ dst.index) (b : Bool) :
    s.Waits limit pins d' (writeReg found dst (.truth b)) := by
  -- the register held no object before, and it holds none now
  have hread : ∀ r, (readReg (writeReg found dst (.truth b)) r).asDatum =
      (readReg found r).asDatum := by
    intro r
    by_cases hr : r.index = dst.index
    · obtain rfl : r = dst := by cases r; cases dst; simp_all
      rw [hold]
      by_cases hlt : r.index < found.size
      · rw [readReg_writeReg_self hlt]
        rfl
      · simp [readReg, writeReg, Array.getD, hlt, Value.asDatum]
    · rw [readReg_writeReg_of_ne hr]
  refine ⟨by simp [writeReg, hwaits.size], fun r hr => ?_, fun r hr hlt => ?_, ?_⟩
  · rw [hread]
    exact hwaits.fresh r (by omega)
  · rw [readReg_writeReg_of_ne (by omega)]
    exact hwaits.initial r (by omega) hlt
  · refine hwaits.alike.trans fun c => ?_
    simp only [Pins.mem_held_cons, Twins.mem_references_registers, hread]
    simp [writeReg]

/-- A truth value in a new register is no object. -/
theorem Stage.Waits.write (hwaits : s.Waits limit pins d found) {d' : Draft} {dst : Reg}
    (hle : d.types.size ≤ d'.types.size) (hdst : d.types.size ≤ dst.index)
    (hnew : dst.index < d'.types.size ∨ limit ≤ dst.index) (b : Bool) :
    s.Waits limit pins d' (writeReg found dst (.truth b)) :=
  hwaits.assign hle (hwaits.fresh dst hdst) hnew b

/-- The kind of a value is tested. -/
theorem Stage.Waits.runs_hasTag (hwaits : s.Waits limit pins d found)
    (hvalue : value.index < d.types.size) (mask : Nat)
    {Q : Reg → Draft → Machine.Outcome → Prop}
    (hQ : ∀ r d' found', s.Waits limit pins d' found' → d.types.toList <+: d'.types.toList →
      readReg found' value = readReg found value →
      readReg found' r = .truth ((w.heap.get (readReg found value).asDatum).hasTag mask) →
      Q r d' (s.here d' w found')) :
    s.Runs (Emit.call (.hasTag mask) [value]) d (s.here d w found) Q := by
  intro hw
  have htest : runInstr s.re s.pins s.code s.block found
      (.call (some ⟨d.types.size⟩) (.hasTag mask) [value]) w =
        .ok (writeReg found ⟨d.types.size⟩
          (.truth ((w.heap.get (readReg found value).asDatum).hasTag mask)), w) := rfl
  have htypes := Emit.Grows.types_prefix (Emit.call (.hasTag mask) [value]) d
  have hsize : (Emit.call (.hasTag mask) [value] d).2.types.size = d.types.size + 1 :=
    Array.size_push _
  have hlt : d.types.size < found.size := by
    have hle := hw.types_size_le
    rw [hwaits.size]
    omega
  refine Stage.runs_instr (d := { d with types := d.types.push .truth })
    (Q := fun _ d' o => Q ⟨d.types.size⟩ d' o) htest ?_ hw
  refine hQ ⟨d.types.size⟩ (Emit.call (.hasTag mask) [value] d).2 _
    (hwaits.write (hsize ▸ Nat.le_succ _) (Nat.le_refl _) (.inl (hsize ▸ Nat.lt_succ_self _)) _)
    htypes ?_ ?_
  · exact readReg_writeReg_of_ne (by simp only; omega)
  · exact readReg_writeReg_self hlt

/-- A complaint about a value ends the run. -/
theorem Stage.runs_errDontSay (s : Stage) (value : Reg)
    (hsize : found.size = s.final.types.size) :
    ∃ e w', (some <$> raiseDontSay (readReg found value).asDatum) w = .ok (some e, w') ∧
      s.Runs (Emit.call .errDontSay [value]) d (s.here d w found)
        fun r d' o => ∃ regs, o = s.here d' w' regs ∧ (readReg regs r).asDatum = e := by
  obtain ⟨e, w', hraise, -⟩ := exists_raise w .dontSay [(readReg found value).asDatum]
  have hsome : (some <$> raiseDontSay (readReg found value).asDatum) w = .ok (some e, w') := by
    simp only [raiseDontSay, Functor.map, StateT.map, hraise, bind, Except.bind]
    rfl
  have hrun : ∀ dst, runInstr s.re s.pins s.code s.block found
      (.call (some dst) .errDontSay [value]) w = .ok (writeReg found dst (.datum e), w') := by
    intro dst
    have hcall : callHelper s.re (.registers found :: s.pins) .errDontSay [readReg found value] w =
        .ok (.datum e, w') := map_datum_apply hraise
    simp only [runInstr, List.map_cons, List.map_nil, bind, StateT.bind, Except.bind, hcall]
    rfl
  refine ⟨e, w', hsome, Stage.runs_load (v := .datum e) hsize rfl hrun ?_⟩
  exact fun r d' regs' _ hr => ⟨regs', rfl, by rw [hr.reads]; rfl⟩

/-- What settling a value comes to: the run has returned, or it has come to the next statement. -/
def Stage.Settles (s : Stage) (limit : Nat) (pins : Pins) (d : Draft) (o : Machine.Outcome) :
    Option Ref × World → Prop
  | (some e, w) => o = .returned e w
  | (none, w) => ∃ found, s.Waits limit pins d found ∧ o = s.here d w found

/-- What is returned at once ends the run. -/
theorem Stage.runs_returnNow {error : Reg} {Q : Unit → Draft → Machine.Outcome → Prop}
    (hQ : ∀ d', Q () d' (.returned (readReg found error).asDatum w)) :
    s.Runs (Emit.returnNow error) d (s.here d w found) Q :=
  .bind (Stage.runs_freshLabel fun _ _ _ => Stage.runs_endBlock fun d' _ _ => hQ d')

/-- The value of a node that always has one is complained about. -/
theorem Stage.Waits.runs_settled_output (hwaits : s.Waits limit pins d found)
    {node : Node} (houtputs : node.outputs = true) :
    ∃ out, node.settle (readReg found value).asDatum w = .ok out ∧
      s.Runs (settled node.returns value) d (s.here d w found)
        fun _ d' o => s.Settles limit pins d' o out := by
  obtain ⟨e, w', hraise, hruns⟩ := s.runs_errDontSay (d := d) (w := w) value hwaits.size
  refine ⟨(some e, w'), by rw [Node.settle_apply, if_pos houtputs, hraise], ?_⟩
  obtain ⟨hnothing, hopen⟩ : node.returns ≠ .nothing ∧ node.returns ≠ .datumOrNothing := by
    simpa [Node.outputs] using houtputs
  rw [settled, if_neg hnothing, if_neg hopen]
  refine .bind (hruns.mono ?_)
  rintro error d₁ _ ⟨regs, rfl, hread⟩
  exact .bind (Stage.runs_returnNow fun d₂ => .pure (by rw [hread]; rfl))

/-- A token is returned, and the run goes on without one. -/
theorem Stage.Waits.runs_passToken (hwaits : s.Waits limit pins d found)
    (hvalue : value.index < d.types.size) {Q : Unit → Draft → Machine.Outcome → Prop}
    (hflow : w.heap.isFlow (readReg found value).asDatum = true →
      ∀ d', Q () d' (.returned (readReg found value).asDatum w))
    (hgo : w.heap.isFlow (readReg found value).asDatum = false →
      ∀ d' found', s.Waits limit pins d' found' → d.types.toList <+: d'.types.toList →
        readReg found' value = readReg found value → Q () d' (s.here d' w found')) :
    s.Runs (Emit.passToken value) d (s.here d w found) Q := by
  refine .bind (hwaits.runs_hasTag hvalue flowMask fun isFlow d₁ found₁ hwaits₁ htypes₁ hvalue₁
    hisFlow => Stage.runs_returnWhen hisFlow (fun hno d₂ htypes₂ => ?_) fun hyes d₂ htypes₂ => ?_)
  · exact hgo hno d₂ found₁ (hwaits₁.grow htypes₂) (htypes₁.trans htypes₂) hvalue₁
  · exact .pure ⟨w, found₁, rfl, fun d₃ => hvalue₁ ▸ hflow hyes d₃⟩

/-- Data is complained about, and the run goes on without. -/
theorem Stage.Waits.runs_requireNothing (hwaits : s.Waits limit pins d found)
    (hvalue : value.index < d.types.size) {Q : Reg → Draft → Machine.Outcome → Prop}
    (hdata : w.heap.isData (readReg found value).asDatum = true →
      ∀ e w', (some <$> raiseDontSay (readReg found value).asDatum) w = .ok (some e, w') →
        ∀ r d', Q r d' (.returned e w'))
    (hgo : w.heap.isData (readReg found value).asDatum = false →
      ∀ d' found', s.Waits limit pins d' found' → Q value d' (s.here d' w found')) :
    s.Runs (Emit.requireNothing value) d (s.here d w found) Q := by
  refine .bind (hwaits.runs_hasTag hvalue dataMask fun isData d₁ found₁ hwaits₁ htypes₁ hvalue₁
    hisData => .bind (Stage.runs_returnWhen hisData (fun hno d₂ htypes₂ => ?_)
      fun hyes d₂ htypes₂ => ?_))
  · exact .pure (hgo hno d₂ found₁ (hwaits₁.grow htypes₂))
  · obtain ⟨e, w', hraise, hruns⟩ := s.runs_errDontSay (d := d₂) (w := w) value hwaits₁.size
    rw [hvalue₁] at hraise
    refine hruns.mono ?_
    rintro error d₃ _ ⟨regs, rfl, hread⟩
    exact ⟨w', regs, rfl, fun d₄ => .pure (hread ▸ hdata hyes e w' hraise value d₄)⟩

/-- A value that need not be there is looked at. -/
theorem Stage.Waits.runs_settled_open (hwaits : s.Waits limit pins d found)
    (hvalue : value.index < d.types.size) {node : Node}
    (hopen : node.returns = .datumOrNothing) :
    ∃ out, node.settle (readReg found value).asDatum w = .ok out ∧
      s.Runs (settled node.returns value) d (s.here d w found)
        fun _ d' o => s.Settles limit pins d' o out := by
  have houtputs : node.outputs = false := by simp [Node.outputs, hopen]
  rw [hopen, settled, if_neg (by simp), if_pos rfl]
  simp only [Node.settle_apply, houtputs, Bool.false_eq_true, if_false]
  obtain ⟨e, w', hraise, -⟩ := s.runs_errDontSay (d := d) (w := w) value hwaits.size
  by_cases hflow : w.heap.isFlow (readReg found value).asDatum = true
  · refine ⟨_, if_pos hflow, .bind (hwaits.runs_passToken hvalue (fun _ d₁ => ?_) fun hno => ?_)⟩
    · exact .skip fun _ _ _ => rfl
    · rw [hflow] at hno
      cases hno
  rw [if_neg hflow, hraise]
  refine ⟨if w.heap.isData (readReg found value).asDatum then (some e, w') else (none, w),
    by split <;> rfl, .bind (hwaits.runs_passToken hvalue (fun hyes => absurd hyes hflow)
      fun _ d₁ found₁ hwaits₁ htypes₁ hvalue₁ => ?_)⟩
  have hlt : value.index < d₁.types.size := by
    have hle := htypes₁.length_le
    simp only [Array.length_toList] at hle
    omega
  refine hwaits₁.runs_requireNothing hlt ?_ ?_ <;> rw [hvalue₁]
  · intro hdata e' w'' hraise' r d₂
    rw [hraise] at hraise'
    cases hraise'
    rw [if_pos hdata]
    rfl
  · intro hdata d₂ found₂ hwaits₂
    rw [if_neg (by simp [hdata])]
    exact ⟨found₂, hwaits₂, rfl⟩

/-- **The value of a statement is settled**, where a node that is said to have no value has
none. -/
theorem Stage.Waits.runs_settled (hwaits : s.Waits limit pins d found)
    (hvalue : value.index < d.types.size) (node : Node)
    (hnone : node.returns = .nothing → w.heap.isFlow (readReg found value).asDatum = false ∧
      w.heap.isData (readReg found value).asDatum = false) :
    ∃ out, node.settle (readReg found value).asDatum w = .ok out ∧
      s.Runs (settled node.returns value) d (s.here d w found)
        fun _ d' o => s.Settles limit pins d' o out := by
  by_cases houtputs : node.outputs = true
  · exact hwaits.runs_settled_output houtputs
  by_cases hopen : node.returns = .datumOrNothing
  · exact hwaits.runs_settled_open hvalue hopen
  have hnothing : node.returns = .nothing := by
    simpa [Node.outputs, hopen] using houtputs
  obtain ⟨hflow, hdata⟩ := hnone hnothing
  refine ⟨(none, w), ?_, ?_⟩
  · simp only [Node.settle_apply, houtputs, hflow, hdata, Bool.false_eq_true, if_false]
  · rw [hnothing, settled, if_pos rfl]
    exact .pure ⟨found, hwaits, rfl⟩

end

end LogoEngine
