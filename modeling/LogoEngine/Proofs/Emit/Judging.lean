import LogoEngine.Proofs.Expression.Casting

/-!
# Conditions

`AND` and `OR` **judge** an input: a truth value is the answer, an object is read as one, and a list
is run and what it leaves is read. What becomes of the input is a `Verdict`, and `ReadsInput` says
which, without the code.

Main statement: `Stage.runs_judge`.
-/

namespace LogoEngine

/-! ### Verdicts -/

/-- What becomes of a condition. -/
inductive Verdict where
  /-- It is true or false. -/
  | decided (b : Bool) (w : World)
  /-- The routine is left with an error or a token. -/
  | left (t : Ref) (w : World)
  /-- It has no truth value, and `ERRACT` has another one asked for. -/
  | asked
  /-- The run does not come to an end. -/
  | stuck

/-- An object as a truth value. -/
inductive ReadsTruth (who o : Ref) (w : World) : Verdict → Prop
  | read {b : Bool} (htruth : w.heap.truth? o = some b) : ReadsTruth who o w (.decided b w)
  | disliked {e : Ref} {record : ErrorRecord} {w' : World} (hnone : w.heap.truth? o = none)
      (hoff : erractSet w = false) (hraises : w.Raises e record w')
      (hreports : w'.Reports e (.doesntLike w.heap who (.datum o))) :
      ReadsTruth who o w (.left e w')
  | asked (hnone : w.heap.truth? o = none) (hon : erractSet w = true) : ReadsTruth who o w .asked

/-- An object as a condition: a list is run, and what it leaves is read. What is held while the list
runs is not said. -/
inductive ReadsCondition (re : Reenter) (who o : Ref) (w : World) : Verdict → Prop
  | plain {v : Verdict} (hlist : (w.heap.get o).hasTag listMask = false)
      (htruth : ReadsTruth who o w v) : ReadsCondition re who o w v
  | value {held : Pins} {t : Ref} {w' : World} {v : Verdict}
      (hlist : (w.heap.get o).hasTag listMask = true) (hrun : re.list held o w = .ok (t, w'))
      (hdata : w'.heap.isData t = true) (htruth : ReadsTruth who t w' v) :
      ReadsCondition re who o w v
  | token {held : Pins} {t : Ref} {w' : World} (hlist : (w.heap.get o).hasTag listMask = true)
      (hrun : re.list held o w = .ok (t, w')) (hflow : w'.heap.isFlow t = true) :
      ReadsCondition re who o w (.left t w')
  | missing {held : Pins} {t e : Ref} {record : ErrorRecord} {w' w'' : World}
      (hlist : (w.heap.get o).hasTag listMask = true) (hrun : re.list held o w = .ok (t, w'))
      (hflow : w'.heap.isFlow t = false) (hdata : w'.heap.isData t = false)
      (hraises : w'.Raises e record w'') (hreports : w''.Reports e (.didntOutput w'.heap t who)) :
      ReadsCondition re who o w (.left e w'')
  | stuck {held : Pins} {halt : Halt} (hlist : (w.heap.get o).hasTag listMask = true)
      (hrun : re.list held o w = .error halt) : ReadsCondition re who o w .stuck

/-- What an input that claims to produce `produced` left, as a condition. A native number becomes a
word, which is read. -/
inductive ReadsInput (re : Reenter) (who : Ref) (produced : Request) (w : World) :
    Value → Verdict → Prop
  | truth {b : Bool} : ReadsInput re who produced w (.truth b) (.decided b w)
  | real {x : Float} {v : Verdict} (htruth : ReadsTruth who (w.heap.add (.word (.number x))).1
      (w.withWord (.number x)) v) : ReadsInput re who produced w (.real x) v
  | object {o : Ref} {v : Verdict} (hdatum : produced ≠ .nothing)
      (hdata : produced = .datumOrNothing → w.heap.isData o = true)
      (hcondition : ReadsCondition re who o w v) : ReadsInput re who produced w (.datum o) v
  | token {o : Ref} (hproduced : produced = .datumOrNothing) (hflow : w.heap.isFlow o = true) :
      ReadsInput re who produced w (.datum o) (.left o w)
  | missing {o e : Ref} {record : ErrorRecord} {w' : World}
      (hproduced : produced = .nothing ∨ produced = .datumOrNothing ∧ w.heap.isFlow o = false ∧
        w.heap.isData o = false)
      (hraises : w.Raises e record w') (hreports : w'.Reports e (.didntOutput w.heap o who)) :
      ReadsInput re who produced w (.datum o) (.left e w')

/-- The code that judges an input. -/
def Emit.judge (who : Ref) (produced : Request) (raw : Reg) : Emit Reg := do
  let value ← Emit.cast raw who produced .datumOrTruth
  Emit.condition who value

instance (who : Ref) (produced : Request) (raw : Reg) : Emit.Grows (Emit.judge who produced raw) := by
  unfold Emit.judge
  infer_instance

/-- What the code of a condition is goes by the type of the register. -/
theorem Emit.condition_run {d : Draft} {cond : Reg} {ty : Ty} (hcond : Declares d.types cond ty)
    (who : Ref) : Emit.condition who cond d = (if ty = .truth then pure cond else do
      let value ← Emit.runIfList who cond
      Emit.truthFromDatum who value : Emit Reg) d := by
  have htype : Emit.typeOf cond d = (ty, d) := by
    simp only [Emit.typeOf, Array.getD_eq_getD_getElem?]
    rw [hcond]
    rfl
  have hbind : ∀ f : Ty → Emit Reg, (Emit.typeOf cond >>= f) d = f ty d :=
    fun f => congrArg (fun p : Ty × Draft => f p.1 p.2) htype
  refine (hbind _).trans ?_
  cases ty <;> rfl

namespace Stage

variable {s : Stage} {d : Draft} {w : World} {regs : Array Value} {who o l : Ref} {r list : Reg}
  {produced : Request} {v : Value}

/-! ### Lists that are run -/

/-- A run that cannot take its next step. -/
def Halts (s : Stage) (halt : Halt) (o : Machine.Outcome) : Prop :=
  ∃ c, o = .running c ∧ Machine.step s.re s.pins s.code s.block c = .error halt

/-- An instruction that fails. -/
theorem runs_instr_halts {i : Instr} {halt : Halt} {Q : Unit → Draft → Machine.Outcome → Prop}
    (hrun : runInstr s.re s.pins s.code s.block regs i w = .error halt)
    (h : ∀ d' o, s.Halts halt o → Q () d' o) : s.Runs (Emit.instr i) d (s.here d w regs) Q := by
  intro hw
  obtain ⟨b, hb, hbegins⟩ := exists_block hw
  have hbegins : d.body.toList ++ [i] <+: b.body := by
    rw [← Array.toList_push]
    exact hbegins
  refine ⟨_, .refl, h _ _ ⟨_, here_eq hb, ?_⟩⟩
  obtain ⟨rest, hrest⟩ := hbegins
  have hdrop : b.body.drop d.body.size = i :: rest := by
    rw [← hrest, List.append_assoc, ← Array.length_toList, List.drop_left]
    rfl
  simp only [hdrop, Machine.step, hrun]

/-- A list is run, and its result is put into a new register. -/
theorem runs_runList (hsize : regs.size = s.final.types.size)
    (hlist : Carries d regs list (.datum l)) {Q : Reg → Draft → Machine.Outcome → Prop}
    (hdone : ∀ t w', s.re.list (.registers regs :: s.pins) l w = .ok (t, w') →
      ∀ r d' regs', Keeps d regs d' regs' → Carries d' regs' r (.datum t) →
        Q r d' (s.here d' w' regs'))
    (hhalted : ∀ halt, s.re.list (.registers regs :: s.pins) l w = .error halt →
      ∀ r d' o, s.Halts halt o → Q r d' o) :
    s.Runs (Emit.call .runList [list]) d (s.here d w regs) Q := by
  cases hresult : s.re.list (.registers regs :: s.pins) l w with
  | ok out =>
    obtain ⟨t, w'⟩ := out
    have hcall : callHelper s.re (.registers regs :: s.pins) .runList [.datum l] w =
        .ok (.datum t, w') := map_datum_apply hresult
    refine runs_load hsize rfl (fun dst => ?_) (hdone t w' hresult)
    simp only [runInstr, List.map_cons, List.map_nil, hlist.reads, bind, StateT.bind, Except.bind,
      hcall]
    rfl
  | error halt =>
    have hcall : callHelper s.re (.registers regs :: s.pins) .runList [.datum l] w =
        .error halt := by
      show Except.bind (s.re.list (.registers regs :: s.pins) l w) _ = _
      rw [hresult]
      rfl
    refine .bind (runs_freshReg fun r d₁ _ _ _ => ?_)
    have hfails : runInstr s.re s.pins s.code s.block regs (.call (some r) .runList [list]) w =
        .error halt := by
      simp only [runInstr, List.map_cons, List.map_nil, hlist.reads, bind, StateT.bind, Except.bind,
        hcall]
    exact .bind (runs_instr_halts hfails fun d' o ho => .pure (hhalted halt hresult r d' o ho))

/-! ### Conditions -/

/-- Where a verdict leads: on with a truth value, or out of the routine. -/
def Judges (s : Stage) (d : Draft) (regs : Array Value) (r : Reg) (d' : Draft)
    (o : Machine.Outcome) : Verdict → Prop
  | .decided b w => s.GoesOn d regs r d' (.truth b) w o
  | .left t w => o = .returned t w
  | .asked => True
  | .stuck => ∃ halt, s.Halts halt o

/-- Where a verdict leads when the registers of an earlier draft count. -/
theorem Judges.keep {d₁ d' : Draft} {regs₁ : Array Value} {out : Machine.Outcome} {b : Reg}
    {verdict : Verdict} (h : s.Judges d₁ regs₁ b d' out verdict) (hkeeps : Keeps d regs d₁ regs₁) :
    s.Judges d regs b d' out verdict := by
  cases verdict with
  | decided =>
    obtain ⟨regs', hout, hkept, hb⟩ := h
    exact ⟨regs', hout, hkeeps.trans hkept, hb⟩
  | left | asked | stuck => exact h

section

variable (hsize : regs.size = s.final.types.size)

include hsize

/-- An object is read as a truth value. -/
theorem runs_readTruth (hr : Carries d regs r (.datum o)) :
    s.Runs (Emit.truthFromDatum who r) d (s.here d w regs) fun b d' out =>
      ∃ verdict, ReadsTruth who o w verdict ∧ s.Judges d regs b d' out verdict := by
  refine (runs_truthValue hsize hr).mono fun b d' out hconcludes => ?_
  obtain ⟨reports, result, w', hdialogue, hout⟩ := hconcludes
  cases herract : erractSet w with
  | true =>
    cases htruth : w.heap.truth? o with
    | none => exact ⟨.asked, .asked htruth herract, trivial⟩
    | some p =>
      have haccepts : Check.truth.accepts w.heap (.datum o) = some (.truth p) := by
        rw [Check.accepts, htruth]
        rfl
      cases hdialogue with
      | accepted haccepted =>
        cases haccepts.symm.trans haccepted
        exact ⟨.decided p w, .read htruth, hout⟩
      | gaveUp hrejects | refused hrejects | again hrejects =>
        rw [haccepts] at hrejects
        cases hrejects
  | false =>
    obtain ⟨-, ⟨u, haccepts, rfl, rfl⟩ | ⟨e, record, hrejects, rfl, hraises, hreports⟩⟩ :=
      hdialogue.of_off herract
    · obtain ⟨p, hp, rfl⟩ := Option.map_eq_some_iff.mp haccepts
      exact ⟨.decided p w', .read hp, hout⟩
    · exact ⟨.left e w', .disliked (Option.map_eq_none_iff.mp hrejects) herract hraises hreports,
        hout⟩

/-- A list is run, and anything else is left alone. -/
theorem runs_runIfList (hr : Carries d regs r (.datum o))
    {Q : Reg → Draft → Machine.Outcome → Prop}
    (hplain : (w.heap.get o).hasTag listMask = false → ∀ value d' regs', Keeps d regs d' regs' →
      Carries d' regs' value (.datum o) → Q value d' (s.here d' w regs'))
    (hran : (w.heap.get o).hasTag listMask = true → ∀ held t w', s.re.list held o w = .ok (t, w') →
      (w'.heap.isData t = true → ∀ value d' regs', Keeps d regs d' regs' →
        Carries d' regs' value (.datum t) → Q value d' (s.here d' w' regs')) ∧
      (w'.heap.isFlow t = true → ∀ value d', Q value d' (.returned t w')) ∧
      (w'.heap.isFlow t = false → w'.heap.isData t = false → ∀ value d' out,
        out.Fails w' (.didntOutput w'.heap t who) → Q value d' out))
    (hhalted : (w.heap.get o).hasTag listMask = true → ∀ held halt,
      s.re.list held o w = .error halt → ∀ value d' out, s.Halts halt out → Q value d' out) :
    s.Runs (Emit.runIfList who r) d (s.here d w regs) Q := by
  unfold Emit.runIfList
  refine .bind (runs_freshReg fun out d₁ hnew hd₁ hdeclares => .bind ?_)
  refine runs_copy hsize (hr.grow hd₁) hdeclares (Keeps.refl.grow hd₁) hnew ?_
  intro d₂ regs₂ hkeeps₂ _ hout _
  have hsize₂ := hkeeps₂.size.trans hsize
  refine runs_whenKind hsize₂ (hr.keep hkeeps₂) (fun hlist go d₄ regs₄ hkept₄ => ?_)
    fun hlist go d₄ regs₄ hkept₄ => ?_
  · have hkeeps₄ := hkeeps₂.trans hkept₄
    have hout₄ := hout.keep hkept₄
    have hsize₄ := hkeeps₄.size.trans hsize
    refine .bind (runs_runList hsize₄ (hr.keep hkeeps₄) ?_ ?_)
    · intro t w' hrun result d₅ regs₅ hkept₅ hresult
      obtain ⟨hvalue, htoken, hmissing⟩ := hran hlist _ t w' hrun
      have hkeeps₅ := hkeeps₄.trans hkept₅
      refine .bind (runs_passToken (hkeeps₅.size.trans hsize) hresult (fun hno d₆ regs₆ hkept₆ => ?_)
        fun hyes d₆ => .skip fun value d' _ => htoken hyes value d')
      have hkeeps₆ := hkeeps₅.trans hkept₆
      refine .bind (runs_requireValue (hkeeps₆.size.trans hsize) (hresult.keep hkept₆)
        (fun hdata d₇ regs₇ hkept₇ => ?_)
        fun hnone d₇ out' hfails => .skip fun value d' _ => hmissing hno hnone value d' out' hfails)
      -- the value takes the place of the list
      have hkeeps₇ := hkeeps₆.trans hkept₇
      have hresult₇ := (hresult.keep hkept₆).keep hkept₇
      have hdeclares₇ := ((hout₄.keep hkept₅).keep hkept₆).keep hkept₇ |>.declares
      refine .bind (.bind (runs_copy (hkeeps₇.size.trans hsize) hresult₇ hdeclares₇ hkeeps₇ hnew ?_))
      intro d₈ regs₈ hkeeps₈ _ hout₈ _
      refine runs_endBlock fun d₉ hd₉ hopen₉ => .pure ?_
      rw [exitTo, ← hopen₉]
      exact hvalue hdata out d₉ regs₈ (hkeeps₈.grow hd₉) (hout₈.grow hd₉)
    · exact fun halt hrun result d₅ out' hhalts => .skip fun value d' _ =>
        hhalted hlist _ halt hrun value d' out' hhalts
  · repeat first | refine .opens fun _ d₅ hd₅ => ?_ | refine .pass fun _ _ => ?_
    have hkeeps₅ := (hkeeps₂.trans hkept₄).grow hd₅
    exact .pure (hplain hlist out d₅ regs₄ hkeeps₅ ((hout.keep hkept₄).grow hd₅))

/-- **A condition on the heap**: what is no list is read, and a list is run. -/
theorem runs_condition (hr : Carries d regs r (.datum o)) :
    s.Runs (Emit.condition who r) d (s.here d w regs) fun b d' out =>
      ∃ verdict, ReadsCondition s.re who o w verdict ∧ s.Judges d regs b d' out verdict := by
  refine .congr (Emit.condition_run hr.declares who) (.bind (runs_runIfList hsize hr ?_ ?_ ?_))
  · intro hlist value d₁ regs₁ hkeeps₁ hvalue
    refine (runs_readTruth (hkeeps₁.size.trans hsize) hvalue).mono fun b d' out hreads => ?_
    obtain ⟨verdict, htruth, hout⟩ := hreads
    exact ⟨verdict, .plain hlist htruth, hout.keep hkeeps₁⟩
  · intro hlist held t w' hrun
    refine ⟨fun hdata value d₁ regs₁ hkeeps₁ hvalue => ?_, fun hflow value d₁ => ?_,
      fun hflow hdata value d₁ out hfails => ?_⟩
    · refine (runs_readTruth (hkeeps₁.size.trans hsize) hvalue).mono fun b d' out hreads => ?_
      obtain ⟨verdict, htruth, hout⟩ := hreads
      exact ⟨verdict, .value hlist hrun hdata htruth, hout.keep hkeeps₁⟩
    · exact .skip fun b d' _ => ⟨.left t w', .token hlist hrun hflow, rfl⟩
    · obtain ⟨e, record, w'', hout, hraises, hreports⟩ := hfails
      exact .skip fun b d' _ =>
        ⟨.left e w'', .missing hlist hrun hflow hdata hraises hreports, hout⟩
  · exact fun hlist held halt hrun value d₁ out hhalts => .skip fun b d' _ =>
      ⟨.stuck, .stuck hlist hrun, halt, hhalts⟩

/-- An object that an input left is handed over, if it is a value. -/
theorem runs_cast_condition (hr : Carries d regs r (.datum o))
    {Q : Reg → Draft → Machine.Outcome → Prop}
    (hgo : produced ≠ .nothing → (produced = .datumOrNothing → w.heap.isData o = true) →
      ∀ d' regs', Keeps d regs d' regs' → Q r d' (s.here d' w regs'))
    (htoken : produced = .datumOrNothing → w.heap.isFlow o = true →
      ∀ value d', Q value d' (.returned o w))
    (hmissing : (produced = .nothing ∨ produced = .datumOrNothing ∧ w.heap.isFlow o = false ∧
        w.heap.isData o = false) →
      ∀ value d' out, out.Fails w (.didntOutput w.heap o who) → Q value d' out) :
    s.Runs (Emit.cast r who produced .datumOrTruth) d (s.here d w regs) Q := by
  refine .congr (Emit.cast_run hr.declares) ?_
  cases produced with
  | nothing =>
    -- the complaint names the source and who asks
    obtain ⟨e, w', record, hraise, hraises, hreports⟩ := exists_raises w .didntOutput [o, who]
    have hcall : ∀ pins, callHelper s.re pins .errDidntOutput [.datum o, .datum who] w =
        .ok (.datum e, w') := fun _ => map_datum_apply hraise
    refine .bind (runs_const hsize fun name d₁ regs₁ hkeeps₁ hname => ?_)
    refine .bind (runs_call (hkeeps₁.size.trans hsize) (.cons (hr.keep hkeeps₁) (.cons hname .nil))
      hcall rfl fun error d₂ regs₂ _ herror => ?_)
    refine .bind (.bind (runs_freshLabel fun dead d₃ _ => runs_endBlock fun d₄ _ _ => ?_))
    refine .pure (hmissing (.inl rfl) r d₄ _ ⟨e, record, w', ?_, hraises, hreports⟩)
    simp only [exitTo, herror.reads, Value.asDatum]
  | datumOrNothing =>
    refine .bind (runs_passToken hsize hr (fun hno d₁ regs₁ hkeeps₁ => ?_) fun hyes d₁ =>
      .skip fun value d' _ => htoken rfl hyes value d')
    exact runs_requireValue (hkeeps₁.size.trans hsize) (hr.keep hkeeps₁)
      (fun hdata d₂ regs₂ hkept₂ => hgo (by simp) (fun _ => hdata) d₂ regs₂ (hkeeps₁.trans hkept₂))
      fun hnone d₂ out hfails => hmissing (.inr ⟨rfl, hno, hnone⟩) r d₂ out hfails
  | truth | datum | real | datumOrTruth => exact .pure (hgo (by simp) (by simp) d regs .refl)

/-- **An input is judged** by its value. -/
theorem runs_judge (hr : Carries d regs r v) (hv : v ≠ .void) :
    s.Runs (Emit.judge who produced r) d (s.here d w regs) fun b d' out =>
      ∃ verdict, ReadsInput s.re who produced w v verdict ∧ s.Judges d regs b d' out verdict := by
  cases v with
  | void => exact absurd rfl hv
  | truth p =>
    have hnative : (Value.truth p).ty ≠ .datum := by simp [Value.ty]
    refine .bind (runs_cast_native hr hnative rfl (.congr (Emit.condition_run hr.declares who)
      (.pure ?_)))
    exact ⟨.decided p w, .truth, regs, rfl, .refl, hr⟩
  | real x =>
    refine .bind ((runs_cast_newWord hsize rfl rfl rfl hr).mono ?_)
    rintro made d₁ _ ⟨regs₁, rfl, hkeeps₁, hmade⟩
    refine (runs_condition (hkeeps₁.size.trans hsize) hmade).mono fun b d' out hreads => ?_
    obtain ⟨verdict, hcondition, hout⟩ := hreads
    refine ⟨verdict, ?_, hout.keep hkeeps₁⟩
    -- a word is no list
    have hword : ((w.withWord (.number x)).heap.get (w.heap.add (.word (.number x))).1).hasTag
        listMask = false := by
      rw [World.withWord, Heap.get_add_self]
      simp [Object.hasTag, Object.kind, Kind.tag, listMask]
    cases hcondition with
    | plain _ htruth => exact .real htruth
    | value hlist | token hlist | missing hlist | stuck hlist =>
      rw [hword] at hlist
      cases hlist
  | datum o =>
    refine .bind (runs_cast_condition hsize hr (fun hdatum hdata d₁ regs₁ hkeeps₁ => ?_)
      (fun hproduced hflow value d₁ => ?_) fun hproduced value d₁ out hfails => ?_)
    · refine (runs_condition (hkeeps₁.size.trans hsize) (hr.keep hkeeps₁)).mono
        fun b d' out hreads => ?_
      obtain ⟨verdict, hcondition, hout⟩ := hreads
      exact ⟨verdict, .object hdatum hdata hcondition, hout.keep hkeeps₁⟩
    · exact .skip fun b d' _ => ⟨.left o w, .token hproduced hflow, rfl⟩
    · obtain ⟨e, record, w', hout, hraises, hreports⟩ := hfails
      exact .skip fun b d' _ => ⟨.left e w', .missing hproduced hraises hreports, hout⟩

end

end Stage

end LogoEngine
