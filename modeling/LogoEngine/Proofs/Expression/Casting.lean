import LogoEngine.Proofs.Emit.Handing
import LogoEngine.Proofs.Emit.Lifetimes
import LogoEngine.Proofs.Eval.Tokens
import LogoEngine.Proofs.Expression.Checks

/-!
# Casts of values

A node **leaves** a value if its register holds a number, a truth value, or data. A cast of such a
value hands it over, reads it through a check, or makes it a word; a value that is of the wrong
native type is an error at once.

Unlike the operators of expressions, casts are described here for every state: what a check makes of
an object is what its dialogue says, whether or not `ERRACT` is set.
-/

namespace LogoEngine

/-! ### Faults -/

namespace Fault

/-- Nobody says what to do with `v`. -/
def dontSay (h : Heap) (v : Value) : Fault :=
  ⟨.dontSay, ErrorCode.dontSay.format [v.shown h]⟩

/-- `source` had no value for `who`. -/
def didntOutput (h : Heap) (source who : Ref) : Fault :=
  ⟨.didntOutput, ErrorCode.didntOutput.format [(Value.datum source).shown h,
    (Value.datum who).shown h]⟩

end Fault

/-! ### Values of nodes -/

/-- What a node that claims to produce `produced` leaves is its value: a native value, or data. -/
def Value.IsOf (h : Heap) (produced : Request) : Value → Prop
  | .real _ | .truth _ => True
  | .datum r => h.isData r = true ∧ (produced = .datum ∨ produced = .datumOrNothing)
  | .void => False

/-- The word that a native value is. -/
def Value.word? : Value → Option Word
  | .real x => some (.number x)
  | .truth b => some (.truth b)
  | .datum _ | .void => none

theorem Value.shown_of_word? {v : Value} {word : Word} (h : v.word? = some word) (heap : Heap) :
    v.shown heap = word.toText := by
  cases v <;> cases h <;> rfl

/-- A value as a number, if it reads as one. -/
def Value.number? (h : Heap) : Value → Option Float
  | .real x => some x
  | .datum r => h.number? r
  | .truth _ | .void => none

/-- A state with a new word. -/
def World.withWord (w : World) (word : Word) : World :=
  { w with heap := (w.heap.add (.word word)).2 }

/-- A run has returned an error. -/
def Machine.Outcome.Fails (o : Machine.Outcome) (w : World) (fault : Fault) : Prop :=
  ∃ e record w', o = .returned e w' ∧ w.Raises e record w' ∧ w'.Reports e fault

namespace Request

variable (request : Request)

theorem contains_real : request.contains .real = request.suits .real := by
  cases request <;> rfl

theorem contains_truth : request.contains .truth = request.suits .truth := by
  cases request <;> rfl

end Request

namespace Stage

variable {s : Stage} {d : Draft} {w : World} {regs : Array Value} {who : Ref} {r : Reg}
  {produced request : Request} {v : Value}

/-- What follows a dialogue, when the registers of an earlier draft count. -/
theorem Concludes.keep {c : Check} {d₁ : Draft} {regs₁ : Array Value} {u : Value} {r' : Reg}
    {d' : Draft} {o : Machine.Outcome} (hkeeps : Keeps d regs d₁ regs₁)
    (h : Concludes c who w u o (s.GoesOn d₁ regs₁ r' d')) :
    Concludes c who w u o (s.GoesOn d regs r' d') := by
  obtain ⟨reports, result, w', hdialogue, hout⟩ := h
  refine ⟨reports, result, w', hdialogue, ?_⟩
  cases result with
  | error e => exact hout
  | ok u' =>
    obtain ⟨regs', ho, hkeeps', hr⟩ := hout
    exact ⟨regs', ho, hkeeps.trans hkeeps', hr⟩

section

variable (hsize : regs.size = s.final.types.size)

include hsize

/-- A value must be there. -/
theorem runs_requireValue {o : Ref} (hr : Carries d regs r (.datum o))
    {Q : Reg → Draft → Machine.Outcome → Prop}
    (hgo : w.heap.isData o = true → ∀ d' regs', Keeps d regs d' regs' →
      Q r d' (s.here d' w regs'))
    (hmissing : w.heap.isData o = false → ∀ d' out,
      out.Fails w (.didntOutput w.heap o who) → Q r d' out) :
    s.Runs (Emit.requireValue who r) d (s.here d w regs) Q := by
  have htest : ∀ pins, callHelper s.re pins (.hasTag dataMask) [.datum o] w =
      .ok (.truth (w.heap.isData o), w) := fun _ => rfl
  refine .bind (runs_call hsize (.cons hr .nil) htest rfl ?_)
  intro isData d₁ regs₁ hkeeps₁ hisData
  have hsize₁ := hkeeps₁.size.trans hsize
  refine .bind (runs_not hsize₁ hisData fun missing d₂ regs₂ hkept₂ hmissing₂ => ?_)
  have hkeeps₂ := hkeeps₁.trans hkept₂
  refine .bind (runs_returnWhen hmissing₂.reads (fun hno d₃ hd₃ => ?_) fun hyes d₃ hd₃ => ?_)
  · exact .pure (hgo (by simpa using hno) d₃ regs₂ (hkeeps₂.grow hd₃))
  · -- the complaint names the source and who asks
    have hkeeps₃ := hkeeps₂.grow hd₃
    obtain ⟨e, w', record, hraise, hraises, hreports⟩ := exists_raises w .didntOutput [o, who]
    have hcall : ∀ pins, callHelper s.re pins .errDidntOutput [.datum o, .datum who] w =
        .ok (.datum e, w') := fun _ => map_datum_apply hraise
    refine .bind (runs_const (hkeeps₃.size.trans hsize) fun name d₄ regs₄ hkept₄ hname => ?_)
    have hkeeps₄ := hkeeps₃.trans hkept₄
    refine runs_call (hkeeps₄.size.trans hsize) (.cons (hr.keep hkeeps₄) (.cons hname .nil)) hcall
      rfl fun error d₅ regs₅ _ herror => ⟨w', regs₅, rfl, fun d' => .pure ?_⟩
    rw [herror.reads]
    exact hmissing (by simpa using hyes) d' _ ⟨e, record, w', rfl, hraises, hreports⟩

/-- Data passes the tests for a token and for a missing value. -/
theorem runs_castDatum {o : Ref} (hproduced : produced = .datum ∨ produced = .datumOrNothing)
    (hdata : w.heap.isData o = true) (hrequest : request ≠ .nothing)
    (hr : Carries d regs r (.datum o)) {Q : Reg → Draft → Machine.Outcome → Prop}
    (h : ∀ d' regs', Keeps d regs d' regs' →
      s.Runs (if request.contains .datum then pure r else Emit.nativeFromDatum who r request) d'
        (s.here d' w regs') Q) :
    s.Runs (Emit.castDatum r who produced request) d (s.here d w regs) Q := by
  have hflow : w.heap.isFlow o = false := Object.isFlow_of_isData hdata
  rcases hproduced with rfl | rfl
  · have hcode : Emit.castDatum r who .datum request =
        if request.contains .datum then pure r else Emit.nativeFromDatum who r request := by
      cases request <;> first | rfl | exact absurd rfl hrequest
    rw [hcode]
    exact h d regs .refl
  · by_cases hsame : request = .datumOrNothing
    · subst hsame
      exact h d regs .refl
    have hcode : Emit.castDatum r who .datumOrNothing request = (do
        Emit.passToken r
        let value ← Emit.requireValue who r
        if request.contains .datum then pure value else Emit.nativeFromDatum who value request) := by
      cases request <;> first | rfl | exact absurd rfl hrequest | exact absurd rfl hsame
    rw [hcode]
    refine .bind (runs_passToken hsize hr (fun _ d₁ regs₁ hkeeps₁ => ?_) fun hyes => ?_)
    · refine .bind (runs_requireValue (hkeeps₁.size.trans hsize) (hr.keep hkeeps₁)
        (fun _ d₂ regs₂ hkept₂ => h d₂ regs₂ (hkeeps₁.trans hkept₂)) fun hno => ?_)
      rw [hdata] at hno
      cases hno
    · rw [hflow] at hyes
      cases hyes

/-- Data that is asked for as an object is handed over. -/
theorem runs_cast_object {o : Ref} (ho : Value.IsOf w.heap produced (.datum o))
    (hrequest : request.contains .datum = true) (hr : Carries d regs r (.datum o)) :
    s.Runs (Emit.cast r who produced request) d (s.here d w regs) fun r' d' out =>
      ∃ regs', out = s.here d' w regs' ∧ Keeps d regs d' regs' ∧ Carries d' regs' r' (.datum o) := by
  refine .congr (Emit.cast_run hr.declares) (runs_castDatum hsize ho.2 ho.1 ?_ hr ?_)
  · rintro rfl
    cases hrequest
  · intro d' regs' hkeeps
    rw [if_pos hrequest]
    exact .pure ⟨regs', rfl, hkeeps, hr.keep hkeeps⟩

/-- Data that is asked for as a number is checked. -/
theorem runs_cast_number {o : Ref} (ho : Value.IsOf w.heap produced (.datum o))
    (hr : Carries d regs r (.datum o)) :
    s.Runs (Emit.cast r who produced .real) d (s.here d w regs) fun r' d' out =>
      Concludes .number who w (.datum o) out (s.GoesOn d regs r' d') := by
  refine .congr (Emit.cast_run hr.declares) (runs_castDatum hsize ho.2 ho.1 (by decide) hr ?_)
  intro d' regs' hkeeps
  exact (runs_number (hkeeps.size.trans hsize) (hr.keep hkeeps)).mono
    fun _ _ _ h => h.keep hkeeps

/-- Data that is asked for as a truth value is checked. -/
theorem runs_cast_truth {o : Ref} (ho : Value.IsOf w.heap produced (.datum o))
    (hr : Carries d regs r (.datum o)) :
    s.Runs (Emit.cast r who produced .truth) d (s.here d w regs) fun r' d' out =>
      Concludes .truth who w (.datum o) out (s.GoesOn d regs r' d') := by
  refine .congr (Emit.cast_run hr.declares) (runs_castDatum hsize ho.2 ho.1 (by decide) hr ?_)
  intro d' regs' hkeeps
  exact (runs_truthValue (hkeeps.size.trans hsize) (hr.keep hkeeps)).mono
    fun _ _ _ h => h.keep hkeeps

/-! ### Native values -/

omit hsize in
/-- A native value that is asked for as such is handed over. -/
theorem runs_cast_native (hr : Carries d regs r v) (hv : v.ty ≠ .datum)
    (hrequest : request.suits v.ty = true) {Q : Reg → Draft → Machine.Outcome → Prop}
    (h : Q r d (s.here d w regs)) :
    s.Runs (Emit.cast r who produced request) d (s.here d w regs) Q := by
  refine .congr (Emit.cast_run hr.declares) ?_
  cases v with
  | real x =>
    dsimp only [Value.ty, Emit.castAs]
    rw [if_pos (request.contains_real.trans hrequest)]
    exact .pure h
  | truth b =>
    dsimp only [Value.ty, Emit.castAs]
    rw [if_pos (request.contains_truth.trans hrequest)]
    exact .pure h
  | datum | void => exact absurd rfl hv

/-- A native value that is not asked for as such is made a word. -/
theorem runs_cast_word {word : Word} (hv : v.word? = some word)
    (hrequest : request.suits v.ty = false) (hr : Carries d regs r v)
    {Q : Reg → Draft → Machine.Outcome → Prop}
    (h : ∀ made d' regs', Keeps d regs d' regs' →
      Carries d' regs' made (.datum (w.heap.add (.word word)).1) →
      s.Runs (Emit.castBoxed made who request) d' (s.here d' (w.withWord word) regs') Q) :
    s.Runs (Emit.cast r who produced request) d (s.here d w regs) Q := by
  refine .congr (Emit.cast_run hr.declares) ?_
  cases v with
  | real x =>
    cases hv
    dsimp only [Value.ty, Emit.castAs]
    rw [request.contains_real.trans hrequest, if_neg Bool.false_ne_true]
    exact .bind (runs_call hsize (.cons hr .nil) (fun _ => rfl) rfl h)
  | truth b =>
    cases hv
    dsimp only [Value.ty, Emit.castAs]
    rw [request.contains_truth.trans hrequest, if_neg Bool.false_ne_true]
    exact .bind (runs_call hsize (.cons hr .nil) (fun _ => rfl) rfl h)
  | datum | void => cases hv

/-- A native value that is asked for as an object is the new word. -/
theorem runs_cast_newWord {word : Word} (hv : v.word? = some word)
    (hrequest : request.suits v.ty = false) (hdatum : request.contains .datum = true)
    (hr : Carries d regs r v) :
    s.Runs (Emit.cast r who produced request) d (s.here d w regs) fun r' d' out =>
      ∃ regs', out = s.here d' (w.withWord word) regs' ∧ Keeps d regs d' regs' ∧
        Carries d' regs' r' (.datum (w.heap.add (.word word)).1) := by
  refine runs_cast_word hsize hv hrequest hr fun made d₁ regs₁ hkeeps₁ hmade => ?_
  rw [Emit.castBoxed, if_pos hdatum]
  exact .pure ⟨regs₁, rfl, hkeeps₁, hmade⟩

/-- **A native value of the wrong type** is disliked at once. -/
theorem runs_cast_wrong {word name : Word} (hwho : w.heap.word? who = some name)
    (hv : v.word? = some word) (hrequest : request = .real ∨ request = .truth)
    (hty : request.suits v.ty = false) (hr : Carries d regs r v) :
    s.Runs (Emit.cast r who produced request) d (s.here d w regs) fun _ _ out =>
      out.Fails w (.doesntLike w.heap who v) := by
  refine runs_cast_word hsize hv hty hr fun made d₁ regs₁ hkeeps₁ hmade => ?_
  have hcode : Emit.castBoxed made who request = (do
      let name ← Emit.const who
      let error ← Emit.call .errDoesntLike [name, made]
      Emit.returnNow error
      Emit.placeholder request) := by
    rcases hrequest with rfl | rfl <;> rfl
  rw [hcode]
  have hsize₁ := hkeeps₁.size.trans hsize
  obtain ⟨e, w', record, hraise, hraises, hreports⟩ :=
    exists_raises (w.withWord word) .doesntLike [who, (w.heap.add (.word word)).1]
  have hcall : ∀ pins, callHelper s.re pins .errDoesntLike
      [.datum who, .datum (w.heap.add (.word word)).1] (w.withWord word) = .ok (.datum e, w') :=
    fun _ => map_datum_apply hraise
  refine .bind (runs_const hsize₁ fun name d₂ regs₂ hkeeps₂ hname => ?_)
  refine .bind (runs_call (hkeeps₂.size.trans hsize₁)
    (.cons hname (.cons (hmade.keep hkeeps₂) .nil)) hcall rfl fun error d₃ regs₃ _ herror => ?_)
  refine .bind (.bind (runs_freshLabel fun dead d₄ _ => runs_endBlock fun d₅ _ _ => ?_))
  refine .skip fun _ _ _ => ⟨e, record, w', ?_, hraises.of_add rfl, ?_⟩
  · simp only [exitTo, herror.reads, Value.asDatum]
  · rw [← Fault.doesntLike_add hwho (Value.shown_of_word? hv w.heap)]
    exact hreports

/-- **A value that is asked for as a number**, while `ERRACT` is not set: the code goes on with the
number, or the value is disliked. -/
theorem runs_cast_real {name : Word} (hoff : erractSet w = false)
    (hwho : w.heap.word? who = some name) (hv : v.IsOf w.heap produced)
    (hr : Carries d regs r v) :
    s.Runs (Emit.cast r who produced .real) d (s.here d w regs) fun r' d' out =>
      (∃ x, v.number? w.heap = some x ∧ s.GoesOn d regs r' d' (.real x) w out) ∨
      v.number? w.heap = none ∧ out.Fails w (.doesntLike w.heap who v) := by
  cases v with
  | real x => exact runs_cast_native hr nofun rfl (.inl ⟨x, rfl, regs, rfl, .refl, hr⟩)
  | truth b =>
    exact (runs_cast_wrong hsize hwho rfl (.inl rfl) rfl hr).mono fun _ _ _ h => .inr ⟨rfl, h⟩
  | void => cases hv
  | datum o =>
    refine (runs_cast_number hsize hv hr).mono fun r' d' out hconcludes => ?_
    obtain ⟨reports, result, w', hdialogue, hout⟩ := hconcludes
    obtain ⟨-, ⟨u, haccepts, rfl, rfl⟩ | ⟨e, record, hrejects, rfl, hraises, hreports⟩⟩ :=
      hdialogue.of_off hoff
    · obtain ⟨x, hx, rfl⟩ := Option.map_eq_some_iff.mp haccepts
      exact .inl ⟨x, hx, hout⟩
    · exact .inr ⟨Option.map_eq_none_iff.mp hrejects, e, record, w', hout, hraises, hreports⟩

end

end Stage

end LogoEngine
