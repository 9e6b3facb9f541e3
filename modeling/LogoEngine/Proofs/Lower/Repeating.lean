import LogoEngine.Proofs.Emit.Repeating
import LogoEngine.Proofs.Lower.Handing
import LogoEngine.Proofs.Machine.Stages

/-!
# `REPEAT` nodes at run time

A `REPEAT` node stands anywhere in a routine. Once its inputs are evaluated, the rest of its code
reads the first of them as a number. If that is a number of repetitions, the code leads where the
passes lead; it dislikes any other value before the first pass.
-/

namespace LogoEngine

/-- A value reads as a number of repetitions. -/
def Value.Counts (h : Heap) (v : Value) (n : Nat) : Prop :=
  n < 2 ^ 31 ∧ ∃ x, v.number? h = some x ∧ IsNatural n x

/-- What is disliked about a value that is no number of repetitions: its number, if it has one. -/
def Value.asCounted (h : Heap) (v : Value) : Value :=
  ((v.number? h).map .real).getD v

section

variable {s : Stage} {h : Heap} {head : NodeHead} {times list : Node} {request : Request}
  {d d₁ d₂ : Draft} {a b r : Reg} {w : World} {regs : Array Value} {word : Word} {v : Value}
  {l : Ref}

/-- The code of a `REPEAT` behind the code of its inputs. -/
theorem run_repeatTimes (hgenerator : head.generator = .repeatTimes)
    (hfault : arityFault? h head 2 = none)
    (hinputs : (lowerInputs h [times, list] [.real, .datum]).run d = (.ok [a, b], d₁)) :
    (lowerNode h (.call head [times, list]) request).run d =
      (liftM (do
        let count ← Emit.cast a head.name times.returns .real
        let items ← Emit.cast b head.name list.returns .datum
        Emit.repetition head.name head.ref count items : Emit Reg) : Lower Reg).run d₁ := by
  have hspecial : head.generator.isSpecial = false := by
    rw [hgenerator]
    rfl
  obtain ⟨node, id, who, generator, returns⟩ := head
  subst hgenerator
  have hcount : arityFault? h _ [times, list].length = none := hfault
  have hcode := lowerNode_generic hcount hspecial request
  rw [hcode]
  exact Lower.run_bind hinputs

/-- The code of a `REPEAT` behind the code of its inputs, along a run. -/
theorem Stage.runs_repeatTimes (hsize : regs.size = s.final.types.size) (hcalm : w.Calm)
    (hwho : w.heap.word? head.name = some word) (hv : v.IsOf w.heap times.returns)
    (ha : Carries d₁ regs a v) (hl : (Value.datum l).IsOf w.heap list.returns)
    (hb : Carries d₁ regs b (.datum l))
    (hrunnable : (w.heap.get l).hasTag wordOrListMask = true) :
    s.Runs (do
      let count ← Emit.cast a head.name times.returns .real
      let items ← Emit.cast b head.name list.returns .datum
      Emit.repetition head.name head.ref count items) d₁ (s.here d₁ w regs) fun r d' o =>
        (∃ n, v.Counts w.heap n ∧ ∃ starts e, Repeats s.re l n 1 w starts e ∧
          s.LoopLeads d₁ regs head.ref w.repcount e r d' o) ∨
        (¬∃ n, v.Counts w.heap n) ∧
          o.Fails w (.doesntLike w.heap head.name (v.asCounted w.heap)) := by
  -- the count is cast first, so a bad one is disliked before the list is looked at
  refine .bind ((runs_cast_real hsize hcalm.unset hwho hv ha).mono fun count d₂ o hout => ?_)
  obtain ⟨x, hx, regs₂, rfl, hkeeps₂, hcount⟩ | ⟨hnone, hfails⟩ := hout
  · have hsize₂ := hkeeps₂.size.trans hsize
    have hcounts : ∀ n, v.Counts w.heap n ↔ n < 2 ^ 31 ∧ IsNatural n x := by
      intro n
      simp only [Value.Counts, hx, Option.some.injEq, exists_eq_left']
    refine .bind ((runs_cast_object hsize₂ hl rfl (hb.keep hkeeps₂)).mono ?_)
    rintro items d₃ o ⟨regs₃, rfl, hkept₃, hitems⟩
    have hkeeps₃ := hkeeps₂.trans hkept₃
    refine (runs_repetition (hkeeps₃.size.trans hsize) hcalm hwho (hcount.keep hkept₃) hitems
      hrunnable).mono fun r d' o hout => ?_
    obtain ⟨n, hn, hnx, starts, e, hpasses, hleads⟩ | ⟨hnot, hfails⟩ := hout
    · exact .inl ⟨n, (hcounts n).mpr ⟨hn, hnx⟩, starts, e, hpasses, hleads.keep hkeeps₃⟩
    · refine .inr ⟨fun hcount => hnot (hcount.imp fun n => (hcounts n).mp), ?_⟩
      rw [Value.asCounted, hx]
      exact hfails
  · refine .skip fun _ _ _ => .inr ⟨?_, ?_⟩
    · rintro ⟨n, -, x, hx, -⟩
      rw [hnone] at hx
      cases hx
    · rw [Value.asCounted, hnone]
      exact hfails

/-- **`REPEAT`.** While `ERRACT` is not set and the inputs of a `REPEAT` are a value and something to
run, a run behind the code of the inputs comes to an outcome. If the value reads as the number `n` of
repetitions, that is what `n` passes lead to: they are numbered from one on, there are at most `n` of
them and exactly `n` if nothing ends the loop before, and `REPCOUNT` is the number of a pass where
its list starts. Any other value is disliked, and no list is run, whatever lists do. The node itself
stands for no value. -/
theorem exists_repeats (hgenerator : head.generator = .repeatTimes)
    (hfault : arityFault? h head 2 = none)
    (hinputs : (lowerInputs h [times, list] [.real, .datum]).run d = (.ok [a, b], d₁))
    (hnode : (lowerNode h (.call head [times, list]) request).run d = (.ok r, d₂))
    (hwithin : d₂.Within s.final) (hsize : regs.size = s.final.types.size) (hcalm : w.Calm)
    (hwho : w.heap.word? head.name = some word) (hv : v.IsOf w.heap times.returns)
    (ha : Carries d₁ regs a v) (hl : (Value.datum l).IsOf w.heap list.returns)
    (hb : Carries d₁ regs b (.datum l))
    (hrunnable : (w.heap.get l).hasTag wordOrListMask = true) :
    ∃ o, s.Leads (s.here d₁ w regs) o ∧
      ((∃ n, v.Counts w.heap n ∧ ∃ starts e, Repeats s.re l n 1 w starts e ∧
          s.LoopLeads d₁ regs head.ref w.repcount e r d₂ o ∧ starts.length ≤ n ∧
          (∀ w', e = .finished w' → starts.length = n) ∧
          ∀ (i : Nat) (u : World), starts[i]? = some u → IsNatural (1 + i) u.repcount) ∨
        (¬∃ n, v.Counts w.heap n) ∧
          o.Fails w (.doesntLike w.heap head.name (v.asCounted w.heap))) := by
  rw [run_repeatTimes hgenerator hfault hinputs] at hnode
  have hrun := Lower.of_run_lift hnode
  have hruns := s.runs_repeatTimes hsize hcalm hwho hv ha hl hb hrunnable
  obtain ⟨o, hleads, hout⟩ := hruns (by rw [hrun]; exact hwithin)
  rw [hrun] at hout
  refine ⟨o, hleads, hout.imp_left ?_⟩
  rintro ⟨n, hcount, starts, e, hpasses, hloop⟩
  have hlength := hpasses.length_le (by omega)
  refine ⟨n, hcount, starts, e, hpasses, hloop, by omega, ?_, fun i u => hpasses.isNatural⟩
  rintro w' rfl
  have := hpasses.length_eq (by omega)
  omega

end

namespace Twice

/-- The words `repeat` and `2`, and an empty list. -/
def heap : Heap where
  objects := #[.nothing, .word (.text "repeat"), .word (.number 2.0), .list ⟨1, none, 0, none⟩]

/-- The inputs of `repeat 2 []`. -/
def inputs : List Node :=
  [.call ⟨⟨4⟩, 1, ⟨2⟩, .literal, .datum⟩ [.datum ⟨2⟩],
    .call ⟨⟨5⟩, 2, ⟨3⟩, .literal, .datum⟩ [.datum ⟨3⟩]]

/-- The statement `repeat 2 []`. -/
def head : NodeHead :=
  ⟨⟨6⟩, 3, ⟨1⟩, .repeatTimes, .datumOrNothing⟩

/-- The draft with the code of the inputs. -/
def before : Draft :=
  ((lowerInputs heap inputs [.real, .datum]).run {}).2

/-- The draft with the code of the statement. -/
def whole : Draft :=
  ((lowerNode heap (.call head inputs) .nothing).run {}).2

theorem isNatural_two : IsNatural 2 2.0 :=
  .finite .positive (m := 2) (by decide) (by decide)

/-- Lists that do nothing let all passes run. -/
theorem exists_finished {l : Ref} {n k : Nat} {w : World} {starts : List World} {e : LoopEnd}
    (h : Repeats .idle l n k w starts e) (hw : w.heap = heap) : ∃ w', e = .finished w' := by
  induction h with
  | finished => exact ⟨_, rfl⟩
  | next _ hstart hlist _ _ _ ih =>
    obtain ⟨x, -, rfl⟩ := hstart
    cases hlist
    exact ih hw
  | token _ hstart hlist hyes | value hstart hlist hyes | unsaid _ hstart hlist hyes =>
    obtain ⟨x, -, rfl⟩ := hstart
    cases hlist
    rw [show World.heap _ = heap from hw] at hyes
    cases hyes
  | halted _ _ hlist => cases hlist

/-- A lowering that succeeds. -/
theorem run_eq_of_toOption {α : Type} {x : Except CompileError α × Draft} {a : α}
    (h : x.1.toOption = some a) : x = (.ok a, x.2) := by
  obtain ⟨result, d⟩ := x
  cases result with
  | ok a' =>
    obtain rfl := Option.some.inj h
    rfl
  | error e => cases h

theorem run_inputs : (lowerInputs heap inputs [.real, .datum]).run {} =
    (.ok [⟨0⟩, ⟨1⟩], before) :=
  run_eq_of_toOption (by decide +kernel)

theorem run_head : (lowerNode heap (.call head inputs) .nothing).run {} = (.ok ⟨29⟩, whole) :=
  run_eq_of_toOption (by decide +kernel)

/-- The list of `repeat 2 []` is run twice. -/
theorem exists_repeats_twice : ∃ (s : Stage) (regs : Array Value) (o : Machine.Outcome)
    (starts : List World) (w' : World), whole.Within s.final ∧
      Carries before regs ⟨0⟩ (.real 2.0) ∧ Carries before regs ⟨1⟩ (.datum ⟨3⟩) ∧
      s.Leads (s.here before { heap := heap } regs) o ∧
      Repeats s.re ⟨3⟩ 2 1 { heap := heap } starts (.finished w') ∧ starts.length = 2 ∧
      s.LoopLeads before regs ⟨6⟩ (-1.0) (.finished w') ⟨29⟩ whole o := by
  obtain ⟨linked, -, hfollows⟩ := (whole.closed.routine "repeat" ⟨0⟩).exists_link .machine
    (by decide +kernel) (by decide +kernel)
  let s : Stage := hfollows.stage (by decide +kernel) .idle [] 0
  let w : World := { heap := heap }
  let blank := Array.replicate s.final.types.size Value.void
  let regs := writeReg (writeReg blank ⟨0⟩ (.real 2.0)) ⟨1⟩ (.datum ⟨3⟩)
  have hblank : 1 < blank.size := by
    have hlt : 1 < whole.types.size := by decide +kernel
    rw [Array.size_replicate]
    exact hlt
  have hsize : regs.size = s.final.types.size := by simp [regs, blank, writeReg]
  have htypes : before.types = #[.real, .datum] := by decide +kernel
  have hdeclared : Declares before.types ⟨0⟩ .real ∧ Declares before.types ⟨1⟩ .datum := by
    rw [htypes]
    exact ⟨rfl, rfl⟩
  have ha : Carries before regs ⟨0⟩ (.real 2.0) :=
    (Carries.write_self hdeclared.1 (Nat.lt_trans Nat.zero_lt_one hblank)).write_of_ne (by decide)
  have hb : Carries before regs ⟨1⟩ (.datum ⟨3⟩) :=
    .write_self hdeclared.2 (by simpa [writeReg] using hblank)
  have htwo : (Value.real 2.0).Counts heap 2 := ⟨by decide, 2.0, rfl, isNatural_two⟩
  obtain ⟨o, hleads, ⟨n, ⟨-, x, hx, hn⟩, starts, e, hrepeats, hloop, -, hlength, -⟩ | ⟨hnot, -⟩⟩ :=
    exists_repeats (w := w) (v := .real 2.0) rfl (by decide +kernel) run_inputs run_head whole.within_closed
      hsize ⟨rfl, nofun⟩ rfl trivial ha ⟨by decide, .inl rfl⟩ hb (by decide)
  · cases hx
    obtain rfl : 2 = n := (isNatural_two.beq_iff hn).mp
      ((isNatural_two.beq_iff isNatural_two).mpr rfl)
    obtain ⟨w', rfl⟩ := exists_finished hrepeats rfl
    exact ⟨s, regs, o, starts, w', whole.within_closed, ha, hb, hleads, hrepeats, hlength w' rfl,
      hloop⟩
  · exact absurd ⟨2, htwo⟩ hnot

end Twice

end LogoEngine
