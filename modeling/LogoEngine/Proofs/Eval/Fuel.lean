import LogoEngine.Proofs.Eval.Keeping
import LogoEngine.Proofs.Machine.Step

/-!
# More fuel changes nothing

Fuel bounds how deep lists and procedures are nested, and how many blocks, jumps and tail calls
there are at each level. A run that ends with a result within its bounds ends with the same result
within larger ones, so that what a program does can be said without a number: with **enough**
fuel.

Main statement: `engine_le`.
-/

namespace LogoEngine

/-! ### More fuel -/

/-- The second computation ends as the first one does, whenever that ends. -/
def Run.Le {α : Type} (m m' : Run α) : Prop :=
  ∀ ⦃w out⦄, m w = .ok out → m' w = .ok out

namespace Run.Le

variable {α β : Type} {m m' : Run α} {f f' : α → Run β}

protected theorem refl : Run.Le m m := fun _ _ h => h

protected theorem bind (hm : Run.Le m m') (hf : ∀ a, Run.Le (f a) (f' a)) :
    Run.Le (m >>= f) (m' >>= f') := by
  intro w out h
  simp only [bind, StateT.bind, Except.bind] at h ⊢
  cases hrun : m w with
  | error halt =>
    rw [hrun] at h
    cases h
  | ok result =>
    rw [hrun] at h
    rw [hm hrun]
    exact hf _ h

/-- What comes after the same first part. -/
theorem after (hf : ∀ a, Run.Le (f a) (f' a)) : Run.Le (m >>= f) (m >>= f') :=
  Run.Le.bind .refl hf

theorem map (g : α → β) (hm : Run.Le m m') : Run.Le (g <$> m) (g <$> m') := by
  rw [map_eq_pure_bind, map_eq_pure_bind]
  exact .bind hm fun _ => .refl

/-- Running out of fuel is no result. -/
theorem throw (halt : Halt) : Run.Le (throw halt) m := by
  rintro w out ⟨⟩

end Run.Le

/-- Whatever the first way to run more code comes to, the second one comes to it too. -/
structure Reenter.Le (re re' : Reenter) : Prop where
  list : ∀ pins r, Run.Le (re.list pins r) (re'.list pins r)
  procedure : ∀ pins node args, Run.Le (re.procedure pins node args) (re'.procedure pins node args)

section

variable {re re' : Reenter} (hre : re.Le re')

include hre

/-! ### The machine -/

theorem callHelper_le (pins : Pins) (helper : Helper) (args : List Value) :
    Run.Le (callHelper re pins helper args) (callHelper re' pins helper args) := by
  cases helper with
  | runList => exact .map _ (hre.list pins _)
  | runProcedure => exact .map _ (hre.procedure pins _ _)
  | runResult => exact .bind (hre.list pins _) fun _ => .refl
  | _ => exact .refl

theorem runInstr_le (pins : Pins) (code : Linked) (block : Int) (regs : Array Value) (i : Instr) :
    Run.Le (runInstr re pins code block regs i) (runInstr re' pins code block regs i) := by
  cases i with
  | call dst helper args => exact .bind (callHelper_le hre _ _ _) fun _ => .refl
  | _ => exact .refl

theorem runInstrs_le (pins : Pins) (code : Linked) (block : Int) (regs : Array Value)
    (is : List Instr) :
    Run.Le (runInstrs re pins code block regs is) (runInstrs re' pins code block regs is) := by
  induction is generalizing regs with
  | nil => exact .refl
  | cons i is ih => exact .bind (runInstr_le hre pins code block regs i) fun regs' => ih regs'

theorem runBlocks_le (pins : Pins) (code : Linked) (block : Int) {fuel fuel' : Nat}
    (hle : fuel ≤ fuel') (regs : Array Value) (position : Nat) :
    Run.Le (runBlocks re pins code block fuel regs position)
      (runBlocks re' pins code block fuel' regs position) := by
  induction fuel generalizing fuel' regs position with
  | zero => exact .throw _
  | succ fuel ih =>
    obtain ⟨fuel', rfl⟩ : ∃ k, fuel' = k + 1 := ⟨fuel' - 1, by omega⟩
    have hrest := fun regs position => ih (Nat.le_of_succ_le_succ hle) regs position
    -- one block, and then the rest with one less on both sides
    rw [runBlocks, runBlocks]
    cases code.blocks[position]? with
    | none => exact .refl
    | some b =>
      refine .bind (runInstrs_le hre pins code block regs b.body) fun regs' => ?_
      cases b.exit with
      | ret value => exact .refl
      | jump target => exact hrest regs' target
      | branch cond yes no => exact hrest regs' _
      | unreachable => exact .refl

theorem runCode_le {fuel fuel' : Nat} (hle : fuel ≤ fuel') (pins : Pins) (code : Linked)
    (block : Int) : Run.Le (runCode re fuel pins code block) (runCode re' fuel' pins code block) :=
  runBlocks_le hre _ code block hle _ _

theorem Machine.step_le {pins : Pins} {code : Linked} {block : Int} {c : Config} {o : Outcome}
    (hstep : step re pins code block c = .ok o) : step re' pins code block c = .ok o := by
  unfold step at hstep ⊢
  split at hstep
  · split at hstep
    · next regs w hrun =>
      rw [runInstr_le hre pins code block _ _ hrun]
      exact hstep
    · cases hstep
  · exact hstep

theorem Machine.Reaches.le {pins : Pins} {code : Linked} {block : Int} {c c' : Config}
    (hreaches : Reaches re pins code block c c') : Reaches re' pins code block c c' := by
  induction hreaches with
  | refl => exact .refl
  | tail _ hmove ih => exact ih.tail (Machine.step_le hre hmove)

/-! ### Lists and procedures -/

theorem runListWith_le {fuel fuel' : Nat} (hle : fuel ≤ fuel') (pins : Pins) (list : Ref) :
    Run.Le (runListWith re fuel pins list) (runListWith re' fuel' pins list) := by
  refine .after fun compiled => ?_
  cases compiled with
  | error failure => exact .refl
  | ok entry =>
    refine .after fun w => .after fun _ => ?_
    exact .bind (runCode_le hre hle _ entry.code 0) fun _ => .refl

theorem bindOptional_le (pins : Pins) (call : Ref) (params : List (String × Ref))
    (args : List Ref) :
    Run.Le (bindOptional re pins call params args) (bindOptional re' pins call params args) := by
  induction params generalizing args with
  | nil => exact .refl
  | cons param params ih =>
    obtain ⟨name, default⟩ := param
    cases args with
    | cons arg args => exact .after fun _ => ih args
    | nil =>
      refine .bind (hre.list pins default) fun value => .after fun h => ?_
      dsimp only
      split
      · exact .refl
      · split
        · exact .after fun _ => ih []
        · exact .refl

theorem runJumps_le {loop loop' : Nat} (hloop : loop ≤ loop') (pins : Pins) (procedure : Ref)
    (code : Linked) {fuel fuel' : Nat} (hle : fuel ≤ fuel') (block : Int) :
    Run.Le (runJumps re loop pins procedure code fuel block)
      (runJumps re' loop' pins procedure code fuel' block) := by
  induction fuel generalizing fuel' block with
  | zero => exact .throw _
  | succ fuel ih =>
    obtain ⟨fuel', rfl⟩ : ∃ k, fuel' = k + 1 := ⟨fuel' - 1, by omega⟩
    refine .bind (runCode_le hre hloop pins code block) fun result => .after fun h => ?_
    split
    · split
      · exact ih (Nat.le_of_succ_le_succ hle) _
      · exact .refl
    · exact .refl

theorem runBody_le {fuel fuel' : Nat} (hle : fuel ≤ fuel') (pins : Pins) (procedure call : Ref)
    (p : Procedure) (args : List Ref) :
    Run.Le (runBody re fuel pins procedure call p args)
      (runBody re' fuel' pins procedure call p args) := by
  refine .after fun args => .bind (bindOptional_le hre _ call p.optional args) fun bound => ?_
  cases bound with
  | error result => exact .refl
  | ok args =>
    refine .after fun _ => .after fun compiled => ?_
    cases compiled with
    | error failure => exact .refl
    | ok entry => exact .after fun _ => runJumps_le hre hle pins procedure entry.code hle 0

theorem invoke_le {fuel fuel' : Nat} (hle : fuel ≤ fuel') (pins : Pins) (procedure call : Ref)
    (args : List Ref) :
    Run.Le (invoke re fuel pins procedure call args) (invoke re' fuel' pins procedure call args) := by
  refine .after fun h => ?_
  cases h.procedure? procedure with
  | none => exact .refl
  | some p =>
    dsimp only
    split
    · exact .refl
    split
    · exact .refl
    · exact .after fun _ => .bind (runBody_le hre hle pins procedure call p args) fun _ => .refl

theorem runCalls_le {loop loop' : Nat} (hloop : loop ≤ loop') (pins : Pins) {fuel fuel' : Nat}
    (hle : fuel ≤ fuel') (a : Activation) :
    Run.Le (runCalls re loop pins fuel a) (runCalls re' loop' pins fuel' a) := by
  induction fuel generalizing fuel' a with
  | zero => exact .throw _
  | succ fuel ih =>
    obtain ⟨fuel', rfl⟩ : ∃ k, fuel' = k + 1 := ⟨fuel' - 1, by omega⟩
    refine .after fun w => ?_
    dsimp only
    split
    · exact .refl
    split
    · exact .refl
    refine .bind (invoke_le hre hloop _ _ _ _) fun result => .after fun h => ?_
    -- only a tail call goes on
    split
    · exact ih (Nat.le_of_succ_le_succ hle) _
    · exact .refl
    · exact .refl
    · exact .refl

end

/-- **More fuel changes nothing**: what the engine comes to, it comes to with more fuel as well. -/
theorem engine_le {n n' : Nat} (hle : n ≤ n') : (engine n).Le (engine n') := by
  induction n generalizing n' with
  | zero => exact ⟨fun _ _ => .throw _, fun _ _ _ => .throw _⟩
  | succ n ih =>
    obtain ⟨n', rfl⟩ : ∃ k, n' = k + 1 := ⟨n' - 1, by omega⟩
    have hle' := Nat.le_of_succ_le_succ hle
    exact ⟨runListWith_le (ih hle') hle', fun pins node args =>
      runCalls_le (ih hle') hle' pins hle' _⟩

end LogoEngine
