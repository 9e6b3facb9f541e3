import LogoEngine.Proofs.Expression.Casting
import LogoEngine.Proofs.Heap.Tidy

/-!
# Native values and their words

A number that was computed stays native, and the value of a variable is a word. A cast makes no
difference between these two forms of a native value: whether it is handed over, and what is said
about it, depends on the value and on what the consumer asks for. The one exception is a value that
the consumer does not take while `ERRACT` is set. The word starts a dialogue then, and the native
value is disliked at once.

Main statement: `Stage.exists_casts_alike`.
-/

namespace LogoEngine

/-- The forms of a native value: the value itself, and its word on the heap. -/
inductive Value.Form (h : Heap) (n : Value) : Value → Prop
  | native : Form h n n
  | boxed {o : Ref} {word : Word} (hn : n.word? = some word) (ho : h.word? o = some word) :
    Form h n (.datum o)

namespace Request

/-- Whether a consumer takes native values of a type, as they are or as words. -/
def takes (request : Request) (ty : Ty) : Bool :=
  request.suits ty || request.contains .datum

/-- The check that words pass for a consumer that asks for a native value. -/
def check : Request → Check
  | .truth => .truth
  | _ => .number

variable {request : Request} {ty : Ty}

theorem takes_of_suits (h : request.suits ty = true) : request.takes ty = true := by
  rw [takes, h, Bool.true_or]

theorem takes_of_contains (h : request.contains .datum = true) : request.takes ty = true := by
  rw [takes, h, Bool.or_true]

end Request

namespace Stage

/-- A native value is handed over in one of its forms; all that may have changed is a new word. -/
def HandsOver (s : Stage) (d : Draft) (regs : Array Value) (w : World) (n : Value) (r' : Reg)
    (d' : Draft) (out : Machine.Outcome) : Prop :=
  ∃ v h, s.GoesOn d regs r' d' v { w with heap := h } out ∧ n.Form h v ∧ w.heap.Grows h

/-- How the cast of a native value ends, in whatever form it is given, if nothing is asked. -/
def Casts (s : Stage) (d : Draft) (regs : Array Value) (w : World) (who : Ref) (request : Request)
    (n : Value) (r' : Reg) (d' : Draft) (out : Machine.Outcome) : Prop :=
  if request.takes n.ty then s.HandsOver d regs w n r' d' out
  else if request = .nothing then out.Fails w (.dontSay w.heap n)
  else out.Fails w (.doesntLike w.heap who n)

/-- How the cast of the word of a native value ends that the consumer does not take, while `ERRACT`
is set: there is a dialogue about it. -/
def Asks (s : Stage) (d : Draft) (regs : Array Value) (w : World) (who : Ref) (request : Request)
    (n : Value) (o : Ref) (r' : Reg) (d' : Draft) (out : Machine.Outcome) : Prop :=
  erractSet w = true ∧ request.takes n.ty = false ∧ request ≠ .nothing ∧
    Concludes request.check who w (.datum o) out (s.GoesOn d regs r' d')

end Stage

namespace Value

variable {h : Heap} {n v : Value} {word : Word}

theorem ty_ne_of_word? (hn : n.word? = some word) : n.ty ≠ .datum := by
  cases n with
  | real | truth => nofun
  | datum | void => cases hn

/-- Messages show both forms alike. -/
theorem Form.shown_eq (hv : n.Form h v) : v.shown h = n.shown h := by
  cases hv with
  | native => rfl
  | boxed hn ho => rw [shown_of_word? hn h, Heap.shown_of_word (Heap.get_of_word? ho)]

end Value

/-- A check for native values reads the native value back from its word. -/
theorem Check.accepts_boxed {h : Heap} {o : Ref} {n : Value} {word : Word} {request : Request}
    (hrequest : request = .real ∨ request = .truth) (hn : n.word? = some word)
    (ho : h.word? o = some word) :
    request.check.accepts h (.datum o) = if request.takes n.ty then some n else none := by
  have hnumber : h.number? o = word.number? := by rw [Heap.number?, ho, Option.bind_some]
  have htruth : h.truth? o = word.truth? := by rw [Heap.truth?, ho, Option.bind_some]
  rcases hrequest with rfl | rfl
  · calc (h.number? o).map Value.real
      _ = word.number?.map Value.real := by rw [hnumber]
      _ = _ := by cases n <;> cases hn <;> rfl
  · calc (h.truth? o).map Value.truth
      _ = word.truth?.map Value.truth := by rw [htruth]
      _ = _ := by cases n <;> cases hn <;> rfl

namespace Stage

variable {s : Stage} {d d' : Draft} {w : World} {regs : Array Value} {who : Ref} {r r' : Reg}
  {produced request : Request} {n v : Value} {word name : Word} {out : Machine.Outcome}

theorem casts_of_handsOver (htakes : request.takes n.ty = true)
    (h : s.HandsOver d regs w n r' d' out) : s.Casts d regs w who request n r' d' out := by
  rwa [Casts, if_pos htakes]

theorem casts_of_dislike (htakes : request.takes n.ty = false) (hrequest : request ≠ .nothing)
    (h : out.Fails w (.doesntLike w.heap who n)) : s.Casts d regs w who request n r' d' out := by
  rwa [Casts, if_neg (Bool.eq_false_iff.mp htakes), if_neg hrequest]

/-- A check of the word ends as the cast of the native value does, or there is a dialogue. -/
theorem casts_or_asks {o : Ref} (hrequest : request = .real ∨ request = .truth)
    (hn : n.word? = some word) (ho : w.heap.word? o = some word)
    (h : Concludes request.check who w (.datum o) out (s.GoesOn d regs r' d')) :
    s.Casts d regs w who request n r' d' out ∨ s.Asks d regs w who request n o r' d' out := by
  have haccepts := Check.accepts_boxed hrequest hn ho
  have hnothing : request ≠ .nothing := by rcases hrequest with rfl | rfl <;> nofun
  cases htakes : request.takes n.ty with
  | true =>
    rw [htakes, if_pos rfl] at haccepts
    obtain ⟨reports, result, w', hdialogue, hout⟩ := h
    obtain ⟨rfl, rfl⟩ := hdialogue.of_accepts haccepts
    exact .inl (casts_of_handsOver htakes ⟨n, _, hout, .native, .refl _⟩)
  | false =>
    cases hon : erractSet w with
    | true => exact .inr ⟨hon, htakes, hnothing, h⟩
    | false =>
      rw [htakes, if_neg Bool.false_ne_true] at haccepts
      obtain ⟨reports, result, w', hdialogue, hout⟩ := h
      obtain ⟨-, ⟨u, hsome, -⟩ | ⟨e, record, -, rfl, hraises, hreports⟩⟩ := hdialogue.of_off hon
      · rw [haccepts] at hsome
        cases hsome
      · refine .inl (casts_of_dislike htakes hnothing ⟨e, record, w', hout, hraises, ?_⟩)
        rwa [Fault.doesntLike, Value.Form.shown_eq (.boxed hn ho)] at hreports

section

variable (hsize : regs.size = s.final.types.size)

include hsize

/-- Nobody says what to do with a value. -/
theorem runs_dontSay {o : Ref} (hr : Carries d regs r (.datum o)) :
    s.Runs (do
      let error ← Emit.call .errDontSay [r]
      Emit.returnNow error
      return r) d (s.here d w regs) fun _ _ out => out.Fails w (.dontSay w.heap (.datum o)) := by
  obtain ⟨e, w', record, hraise, hraises, hreports⟩ := exists_raises w .dontSay [o]
  have hcall : ∀ pins, callHelper s.re pins .errDontSay [.datum o] w = .ok (.datum e, w') :=
    fun _ => map_datum_apply hraise
  refine .bind (runs_call hsize (.cons hr .nil) hcall rfl fun error d₁ regs₁ _ herror => ?_)
  refine .bind (.bind (runs_freshLabel fun dead d₂ _ => runs_endBlock fun d₃ _ _ => ?_))
  refine .skip fun _ _ _ => ⟨e, record, w', ?_, hraises, hreports⟩
  simp only [exitTo, herror.reads, Value.asDatum]

/-- A native value is never asked about. -/
theorem runs_cast_unboxed (hwho : w.heap.word? who = some name) (hn : n.word? = some word)
    (hr : Carries d regs r n) :
    s.Runs (Emit.cast r who produced request) d (s.here d w regs)
      (s.Casts d regs w who request n) := by
  have hnative := Value.ty_ne_of_word? hn
  cases hsuits : request.suits n.ty with
  | true =>
    refine runs_cast_native hr hnative hsuits ?_
    exact casts_of_handsOver (Request.takes_of_suits hsuits)
      ⟨n, w.heap, ⟨regs, rfl, .refl, hr⟩, .native, .refl _⟩
  | false =>
    cases hdatum : request.contains .datum with
    | true =>
      refine (runs_cast_newWord hsize hn hsuits hdatum hr).mono fun r' d' out hout => ?_
      refine casts_of_handsOver (Request.takes_of_contains hdatum)
        ⟨_, _, hout, .boxed hn ?_, .add w.heap (.word word)⟩
      rw [Heap.word?, Heap.get_add_self]
      rfl
    | false =>
      have htakes : request.takes n.ty = false := by rw [Request.takes, hsuits, hdatum]; rfl
      by_cases hnothing : request = .nothing
      · -- it is made a word, and the error is about that word
        subst hnothing
        refine runs_cast_word hsize hn hsuits hr fun made d₁ regs₁ hkeeps₁ hmade => ?_
        refine (runs_dontSay (hkeeps₁.size.trans hsize) hmade).mono fun r' d' out hout => ?_
        obtain ⟨e, record, w', rfl, hraises, hreports⟩ := hout
        rw [Casts, if_neg (Bool.eq_false_iff.mp htakes), if_pos rfl]
        refine ⟨e, record, w', rfl, hraises.of_add rfl, ?_⟩
        rwa [Fault.dontSay, World.withWord, Heap.shown_of_word (Heap.get_add_self ..),
          ← Value.shown_of_word? hn w.heap] at hreports
      · have hrequest : request = .real ∨ request = .truth := by
          cases request with
          | real => exact .inl rfl
          | truth => exact .inr rfl
          | nothing => exact absurd rfl hnothing
          | datum | datumOrNothing | datumOrTruth => cases hdatum
        exact (runs_cast_wrong hsize hwho hn hrequest hsuits hr).mono
          fun _ _ _ => casts_of_dislike htakes hnothing

/-- The cast of the word ends as that of the native value does, or there is a dialogue. -/
theorem runs_cast_boxed {o : Ref} (hn : n.word? = some word) (ho : w.heap.word? o = some word)
    (hr : Carries d regs r (.datum o)) :
    s.Runs (Emit.cast r who .datum request) d (s.here d w regs) fun r' d' out =>
      s.Casts d regs w who request n r' d' out ∨ s.Asks d regs w who request n o r' d' out := by
  have hdata := Heap.isData_of_word? ho
  cases hdatum : request.contains .datum with
  | true =>
    refine (runs_cast_object hsize ⟨hdata, .inl rfl⟩ hdatum hr).mono fun r' d' out hout => .inl ?_
    exact casts_of_handsOver (Request.takes_of_contains hdatum)
      ⟨_, w.heap, hout, .boxed hn ho, .refl _⟩
  | false =>
    cases request with
    | real =>
      exact (runs_cast_number hsize ⟨hdata, .inl rfl⟩ hr).mono
        fun _ _ _ => casts_or_asks (.inl rfl) hn ho
    | truth =>
      exact (runs_cast_truth hsize ⟨hdata, .inl rfl⟩ hr).mono
        fun _ _ _ => casts_or_asks (.inr rfl) hn ho
    | nothing =>
      refine .congr (Emit.cast_run hr.declares) ((runs_dontSay hsize hr).mono fun _ _ _ h => .inl ?_)
      have htakes : ¬ Request.nothing.takes n.ty = true := by
        cases n <;> cases hn <;> nofun
      rwa [Casts, if_neg htakes, if_pos rfl, Fault.dontSay, ← Value.Form.shown_eq (.boxed hn ho)]
    | datum | datumOrNothing | datumOrTruth => cases hdatum

end

/-! ### Both forms side by side -/

/-- **A cast treats a native value and its word alike**: it hands the value over, or complains about
it in the same words. Only a word that the consumer does not take is asked about first, and only
while `ERRACT` is set. -/
theorem exists_casts_alike {s₁ s₂ : Stage} {d₁ d₂ : Draft} {w : World} {regs₁ regs₂ : Array Value}
    {who o : Ref} {r₁ r₂ : Reg} {produced request : Request} {n : Value} {word name : Word}
    (hwithin₁ : (Emit.cast r₁ who produced request d₁).2.Within s₁.final)
    (hwithin₂ : (Emit.cast r₂ who .datum request d₂).2.Within s₂.final)
    (hsize₁ : regs₁.size = s₁.final.types.size) (hsize₂ : regs₂.size = s₂.final.types.size)
    (hwho : w.heap.word? who = some name) (hn : n.word? = some word)
    (ho : w.heap.word? o = some word) (hr₁ : Carries d₁ regs₁ r₁ n)
    (hr₂ : Carries d₂ regs₂ r₂ (.datum o)) :
    ∃ out₁ out₂, s₁.Leads (s₁.here d₁ w regs₁) out₁ ∧ s₂.Leads (s₂.here d₂ w regs₂) out₂ ∧
      s₁.Casts d₁ regs₁ w who request n (Emit.cast r₁ who produced request d₁).1
        (Emit.cast r₁ who produced request d₁).2 out₁ ∧
      (s₂.Casts d₂ regs₂ w who request n (Emit.cast r₂ who .datum request d₂).1
        (Emit.cast r₂ who .datum request d₂).2 out₂ ∨
        s₂.Asks d₂ regs₂ w who request n o (Emit.cast r₂ who .datum request d₂).1
          (Emit.cast r₂ who .datum request d₂).2 out₂) := by
  obtain ⟨out₁, hleads₁, hout₁⟩ := runs_cast_unboxed hsize₁ hwho hn hr₁ hwithin₁
  obtain ⟨out₂, hleads₂, hout₂⟩ := runs_cast_boxed hsize₂ hn ho hr₂ hwithin₂
  exact ⟨out₁, out₂, hleads₁, hleads₂, hout₁, hout₂⟩

end Stage

namespace Summand

/-- `SUM`, and the word of a truth value, which is also the value of `ERRACT`. -/
def asked : World where
  heap := { objects := #[.nothing, .word (.text "sum"), .word (.truth true)] }
  frames := { globals := { locals := [("ERRACT", ⟨2⟩)] } }

/-- A draft that takes one value. -/
def one (ty : Ty) : Draft :=
  { types := #[ty] }

/-- The draft that casts its value to a number for `SUM`. -/
def summed (produced : Request) (ty : Ty) : Draft :=
  (Emit.cast ⟨0⟩ ⟨1⟩ produced .real (one ty)).2

/-- The registers of a stage that starts with a value. -/
def starting (s : Stage) (v : Value) : Array Value :=
  Array.replicate s.final.types.size v

theorem carries_starting {s : Stage} {v : Value} (hpos : 0 < s.final.types.size) :
    Carries (one v.ty) (starting s v) ⟨0⟩ v := by
  refine ⟨rfl, ?_⟩
  change (Array.replicate s.final.types.size v).getD 0 .void = v
  simp [Array.getD, hpos]

/-- A routine that ends after a draft can be run. -/
theorem exists_stage {d : Draft} (hentry : ⟨0⟩ ∈ (d.closed.routine "sum" ⟨0⟩).labels)
    (htargets : ∀ b ∈ (d.closed.routine "sum" ⟨0⟩).blocks, ∀ t ∈ b.exit.targets,
      t ∈ (d.closed.routine "sum" ⟨0⟩).labels)
    (hnodup : (d.closed.routine "sum" ⟨0⟩).labels.Nodup) :
    ∃ s : Stage, s.final = d.closed ∧ d.Within s.final := by
  obtain ⟨linked, -, hfollows⟩ := (d.closed.routine "sum" ⟨0⟩).exists_link .machine hentry htargets
  exact ⟨hfollows.stage hnodup (engine 0) [] 0, rfl, Draft.within_closed d⟩

/-- A truth value is no summand in either form, and its word is asked about. -/
theorem exists_casts_alike_truth : ∃ (s₁ s₂ : Stage) (out₁ out₂ : Machine.Outcome),
    (summed .truth .truth).Within s₁.final ∧ (summed .datum .datum).Within s₂.final ∧
    asked.heap.word? ⟨1⟩ = some (.text "sum") ∧ asked.heap.word? ⟨2⟩ = some (.truth true) ∧
    s₁.Leads (s₁.here (one .truth) asked (starting s₁ (.truth true))) out₁ ∧
    s₂.Leads (s₂.here (one .datum) asked (starting s₂ (.datum ⟨2⟩))) out₂ ∧
    out₁.Fails asked (.doesntLike asked.heap ⟨1⟩ (.truth true)) ∧
    erractSet asked = true := by
  obtain ⟨s₁, hfinal₁, hwithin₁⟩ := exists_stage (d := summed .truth .truth)
    (by decide +kernel) (by decide +kernel) (by decide +kernel)
  obtain ⟨s₂, hfinal₂, hwithin₂⟩ := exists_stage (d := summed .datum .datum)
    (by decide +kernel) (by decide +kernel) (by decide +kernel)
  have hr₁ : Carries (one .truth) (starting s₁ (.truth true)) ⟨0⟩ (.truth true) :=
    carries_starting (v := .truth true) (by rw [hfinal₁]; decide +kernel)
  have hr₂ : Carries (one .datum) (starting s₂ (.datum ⟨2⟩)) ⟨0⟩ (.datum ⟨2⟩) :=
    carries_starting (v := .datum ⟨2⟩) (by rw [hfinal₂]; decide +kernel)
  obtain ⟨out₁, out₂, hleads₁, hleads₂, hcasts, -⟩ := Stage.exists_casts_alike hwithin₁ hwithin₂
    Array.size_replicate Array.size_replicate (w := asked) rfl rfl rfl hr₁ hr₂
  exact ⟨s₁, s₂, out₁, out₂, hwithin₁, hwithin₂, rfl, rfl, hleads₁, hleads₂, hcasts,
    by decide +kernel⟩

end Summand

end LogoEngine
