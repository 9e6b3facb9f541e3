import LogoEngine.Proofs.Expression.Retries

/-!
# Checked inputs at run time

Code **gives** what the evaluator says if it leaves the same value behind, in a state that is as
before and with all older registers kept, or returns a record of the same error. Code of two parts
gives what the evaluator says of the parts in a row (`Stage.Runs.gives_bind`): after an error the
rest is skipped.

While `ERRACT` is not set, a check tests its operand once and gives it up if it does not pass.
-/

namespace LogoEngine

/-! ### States without `ERRACT` -/

/-- A state in which `ERRACT` does not ask for a pause. -/
structure World.Calm (w : World) : Prop where
  unset : erractSet w = false
  /-- The value of `ERRACT`, if it has one, exists. -/
  bound : ∀ r, w.frames.get? "ERRACT" = some r → r.index < w.heap.objects.size

/-- What the loops of range checks rely on. -/
theorem World.Calm.named {w : World} {who : Ref} {word : Word} (hw : w.Calm)
    (hwho : w.heap.word? who = some word) : w.Named who word :=
  ⟨hwho, hw.bound⟩

/-! ### Code that gives a value or an error -/

namespace Stage

variable {s : Stage} {ρ σ α β : Type} {m : Emit ρ} {f : ρ → Emit σ} {d : Draft} {w : World}
  {regs : Array Value} {R : Draft → Array Value → ρ → α → Prop}
  {S : Draft → Array Value → σ → β → Prop}

/-- How code ends that gives what the evaluator says: the state is as before and the result
relates to the value, or a record of the error is returned. -/
def Gives (s : Stage) (R : Draft → Array Value → ρ → α → Prop) (d : Draft) (regs : Array Value)
    (w : World) (result : Except Fault α) (r : ρ) (d' : Draft) (o : Machine.Outcome) : Prop :=
  match result with
  | .ok v => ∃ regs', o = s.here d' w regs' ∧ Keeps d regs d' regs' ∧ R d' regs' r v
  | .error fault => ∃ e w', o = .returned e w' ∧ w'.Reports e fault

/-- A register holds a number. -/
abbrev CarriesReal (d : Draft) (regs : Array Value) (r : Reg) (x : Float) : Prop :=
  Carries d regs r (.real x)

/-- A register holds a truth value. -/
abbrev CarriesTruth (d : Draft) (regs : Array Value) (r : Reg) (b : Bool) : Prop :=
  Carries d regs r (.truth b)

theorem Gives.trans {d₁ d' : Draft} {regs₁ : Array Value} {result : Except Fault α} {r : ρ}
    {o : Machine.Outcome} (hkeeps : Keeps d regs d₁ regs₁)
    (h : s.Gives R d₁ regs₁ w result r d' o) : s.Gives R d regs w result r d' o := by
  cases result with
  | error fault => exact h
  | ok v =>
    obtain ⟨regs', ho, hkeeps', hr⟩ := h
    exact ⟨regs', ho, hkeeps.trans hkeeps', hr⟩

/-- A value that is there. -/
theorem Runs.gives_pure {r : ρ} {v : α} (h : R d regs r v) :
    s.Runs (Pure.pure r) d (s.here d w regs) (s.Gives R d regs w (.ok v)) :=
  .pure ⟨regs, rfl, .refl, h⟩

/-- **Code in a row** gives what the evaluator says in a row; after an error it is skipped. -/
theorem Runs.gives_bind [g : ∀ r, Emit.Grows (f r)] {result : Except Fault α}
    {next : α → Except Fault β}
    (hm : s.Runs m d (s.here d w regs) (s.Gives R d regs w result))
    (hf : ∀ r v d₁ regs₁, Keeps d regs d₁ regs₁ → R d₁ regs₁ r v →
      s.Runs (f r) d₁ (s.here d₁ w regs₁) (s.Gives S d₁ regs₁ w (next v))) :
    s.Runs (m >>= f) d (s.here d w regs) (s.Gives S d regs w (result >>= next)) := by
  refine .bind (hm.mono fun r d₁ o hgives => ?_)
  cases result with
  | error fault =>
    obtain ⟨e, w', rfl, hreports⟩ := hgives
    exact .skip fun _ _ _ => ⟨e, w', rfl, hreports⟩
  | ok v =>
    obtain ⟨regs₁, rfl, hkeeps, hr⟩ := hgives
    exact (hf r v d₁ regs₁ hkeeps hr).mono fun _ _ _ hgives' => hgives'.trans hkeeps

/-- Code after code that gives a value in any case. -/
theorem Runs.gives_then [g : ∀ r, Emit.Grows (f r)] {v : α} {result : Except Fault β}
    (hm : s.Runs m d (s.here d w regs) (s.Gives R d regs w (.ok v)))
    (hf : ∀ r d₁ regs₁, Keeps d regs d₁ regs₁ → R d₁ regs₁ r v →
      s.Runs (f r) d₁ (s.here d₁ w regs₁) (s.Gives S d₁ regs₁ w result)) :
    s.Runs (m >>= f) d (s.here d w regs) (s.Gives S d regs w result) := by
  refine .bind (hm.mono fun r d₁ o hgives => ?_)
  obtain ⟨regs₁, rfl, hkeeps, hr⟩ := hgives
  exact (hf r d₁ regs₁ hkeeps hr).mono fun _ _ _ hgives' => hgives'.trans hkeeps

/-! ### Retry loops -/

section

variable {who : Ref} {src r : Reg} {v : Ref} {x : Float} {word : Word} {c : Check} {d' : Draft}
  {o : Machine.Outcome}

/-- While `ERRACT` is off a check gives the value that it accepts, or returns an error. -/
theorem Concludes.gives {u : Value} (hoff : erractSet w = false)
    (h : Concludes c who w u o (s.GoesOn d regs r d')) :
    s.Gives Carries d regs w
      (match c.accepts w.heap u with
        | some u' => .ok u'
        | none => .error (.doesntLike w.heap who u)) r d' o := by
  obtain ⟨reports, result, w', hdialogue, hout⟩ := h
  obtain ⟨-, ⟨u', haccepts, rfl, rfl⟩ | ⟨e, record, hrejects, rfl, -, hreports⟩⟩ :=
    hdialogue.of_off hoff
  · rw [haccepts]
    exact hout
  · rw [hrejects]
    exact ⟨e, w', hout, hreports⟩

/-- The numeric reading of a value. -/
theorem runs_realFromDatum (hsize : regs.size = s.final.types.size) (hcalm : erractSet w = false)
    (hsrc : Carries d regs src (.datum v)) :
    s.Runs (Emit.realFromDatum who src) d (s.here d w regs)
      (s.Gives CarriesReal d regs w ((Value.datum v).readReal w.heap who)) := by
  refine (runs_number hsize hsrc).mono fun r d' o hout => ?_
  have hgives := hout.gives hcalm
  cases hnumber : w.heap.number? v
  all_goals
    simp only [Value.readReal, hnumber, Check.accepts, Option.map_some, Option.map_none] at hgives ⊢
    exact hgives

/-- The truth value of a value. -/
theorem runs_truthFromDatum (hsize : regs.size = s.final.types.size) (hcalm : erractSet w = false)
    (hsrc : Carries d regs src (.datum v)) :
    s.Runs (Emit.truthFromDatum who src) d (s.here d w regs)
      (s.Gives CarriesTruth d regs w ((Value.datum v).readTruth w.heap who)) := by
  refine (runs_truthValue hsize hsrc).mono fun r d' o hout => ?_
  have hgives := hout.gives hcalm
  cases htruth : w.heap.truth? v
  all_goals
    simp only [Value.readTruth, htruth, Check.accepts, Option.map_some, Option.map_none] at hgives ⊢
    exact hgives

/-- A range check gives the number back, or gives up. -/
theorem gives_range (bounds : RangeCheck) (hsize : regs.size = s.final.types.size)
    (hcalm : w.Calm) (hwho : w.heap.word? who = some word) (hsrc : CarriesReal d regs src x) :
    s.Runs (bounds.emit who src) d (s.here d w regs)
      (s.Gives CarriesReal d regs w (demand w.heap who bounds.holds x)) := by
  refine (runs_range bounds hsize (hcalm.named hwho) hsrc).mono fun r d' o hout => ?_
  have hgives := hout.gives hcalm.unset
  cases hholds : bounds.holds x
  all_goals
    simp only [demand, hholds, Check.accepts, if_true, Bool.false_eq_true, if_false] at hgives ⊢
    exact hgives

end

end Stage

end LogoEngine
