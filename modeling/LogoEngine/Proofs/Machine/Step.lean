import LogoEngine.Eval.Machine
import Mathlib.Logic.Relation

/-!
# The machine, step by step

The register machine runs whole blocks at a time. Here the same machine is cut into **steps**, one
instruction or one end of a block each, so that statements can be made about every moment of a run.

Main statement: `exists_runCode_iff`, a run of linked code ends with a result exactly if its steps
lead from the start to that result. `runBlocks_mono` says that more fuel changes nothing.
-/

namespace LogoEngine

/-- A run between two instructions: the block it is in, and what is left of that block. -/
structure Config where
  world : World
  regs : Array Value
  position : Nat
  rest : List Instr

namespace Machine

/-- What a step leads to. -/
inductive Outcome where
  | running (c : Config)
  | returned (r : Ref) (w : World)

/-- The evaluator after a step. -/
def Outcome.world : Outcome → World
  | running c => c.world
  | returned _ w => w

/-- The start of the block at a position. -/
def enter (code : Linked) (w : World) (regs : Array Value) (position : Nat) : Config :=
  ⟨w, regs, position, ((code.blocks[position]?).map LinkedBlock.body).getD []⟩

/-- The start of a run. -/
def start (code : Linked) (w : World) : Config :=
  enter code w (initialRegisters code.types) code.entry

section

variable (re : Reenter) (pins : Pins) (code : Linked) (block : Int)

/-- The end of the block a run is in. -/
def leave (c : Config) : Outcome :=
  match code.blocks[c.position]? with
  | none => .returned Ref.nothing c.world
  | some b =>
    match b.exit with
    | .ret value => .returned (readReg c.regs value).asDatum c.world
    | .jump target => .running (enter code c.world c.regs target)
    | .branch cond yes no =>
      .running (enter code c.world c.regs (if (readReg c.regs cond).asTruth then yes else no))
    | .unreachable => .returned Ref.nothing c.world

/-- One instruction, or the end of a block if none is left. -/
def step (c : Config) : Except Halt Outcome :=
  match c.rest with
  | i :: rest =>
    match runInstr re pins code block c.regs i c.world with
    | .ok (regs, world) => .ok (.running ⟨world, regs, c.position, rest⟩)
    | .error halt => .error halt
  | [] => .ok (leave code c)

/-- One configuration follows another. -/
def Moves (c c' : Config) : Prop :=
  step re pins code block c = .ok (.running c')

/-- One configuration leads to another in any number of steps. -/
def Reaches : Config → Config → Prop :=
  Relation.ReflTransGen (Moves re pins code block)

/-- A configuration leads to a result in any number of steps. -/
def Returns (c : Config) (r : Ref) (w : World) : Prop :=
  ∃ c', Reaches re pins code block c c' ∧ step re pins code block c' = .ok (.returned r w)

/-- What is left of a run: the rest of the block and all that follows it. -/
def finish (fuel : Nat) (c : Config) : Except Halt (Ref × World) :=
  match runInstrs re pins code block c.regs c.rest c.world with
  | .error halt => .error halt
  | .ok (regs, w) =>
    match leave code { c with regs, world := w, rest := [] } with
    | .returned r w => .ok (r, w)
    | .running c' => runBlocks re pins code block fuel c'.regs c'.position c'.world

end

variable {re : Reenter} {pins : Pins} {code : Linked} {block : Int}

/-! ### Steps and what is left of a run -/

/-- The end of a block changes nothing but the position. -/
theorem world_leave (code : Linked) (c : Config) : (leave code c).world = c.world := by
  unfold leave
  split
  · rfl
  · split <;> rfl

/-- Entering a block leaves the run of that block and what follows. -/
theorem runBlocks_succ (fuel : Nat) (regs : Array Value) (position : Nat) (w : World) :
    runBlocks re pins code block (fuel + 1) regs position w =
      finish re pins code block fuel (enter code w regs position) := by
  rw [runBlocks, finish, enter]
  cases hb : code.blocks[position]? with
  | none =>
    simp only [leave, hb]
    rfl
  | some b =>
    simp only [Option.map_some, Option.getD_some, bind, StateT.bind, Except.bind]
    cases runInstrs re pins code block regs b.body w with
    | error halt => rfl
    | ok out =>
      obtain ⟨regs', w'⟩ := out
      simp only [leave, hb]
      cases b.exit <;> rfl

theorem finish_instr {c : Config} {i : Instr} {rest : List Instr} {regs : Array Value}
    {w : World} (hrest : c.rest = i :: rest)
    (hrun : runInstr re pins code block c.regs i c.world = .ok (regs, w)) (fuel : Nat) :
    finish re pins code block fuel c =
      finish re pins code block fuel ⟨w, regs, c.position, rest⟩ := by
  rw [finish, finish, hrest, runInstrs]
  simp only [bind, StateT.bind, Except.bind, hrun]

theorem finish_leave {c : Config} (hrest : c.rest = []) (fuel : Nat) :
    finish re pins code block fuel c =
      match leave code c with
      | .returned r w => .ok (r, w)
      | .running c' => runBlocks re pins code block fuel c'.regs c'.position c'.world := by
  obtain ⟨w, regs, position, rest⟩ := c
  obtain rfl : rest = [] := hrest
  rfl

/-- The blocks a run goes on with are entered at their start. -/
theorem eq_enter_of_leave {c c' : Config} (h : leave code c = .running c') :
    c' = enter code c'.world c'.regs c'.position := by
  unfold leave at h
  split at h
  · cases h
  · split at h <;> cases h <;> rfl

/-- A step back from a run that ends: with one more block to enter it ends the same way. -/
theorem exists_finish_of_moves {c c' : Config} {fuel : Nat} {out : Ref × World}
    (h : Moves re pins code block c c') (hout : finish re pins code block fuel c' = .ok out) :
    ∃ fuel', finish re pins code block fuel' c = .ok out := by
  unfold Moves step at h
  split at h
  · next i rest hrest =>
    split at h
    · next regs w hrun =>
      cases h
      exact ⟨fuel, by rw [finish_instr hrest hrun, hout]⟩
    · cases h
  · next hrest =>
    have hleave : leave code c = .running c' := by simpa using h
    refine ⟨fuel + 1, ?_⟩
    simp only [finish_leave hrest, hleave]
    rw [runBlocks_succ, ← eq_enter_of_leave hleave, hout]

theorem exists_finish_of_returns {c : Config} {r : Ref} {w : World}
    (h : Returns re pins code block c r w) :
    ∃ fuel, finish re pins code block fuel c = .ok (r, w) := by
  obtain ⟨c', hreach, hlast⟩ := h
  induction hreach using Relation.ReflTransGen.head_induction_on with
  | refl =>
    unfold step at hlast
    split at hlast
    · split at hlast <;> cases hlast
    · next hrest =>
      have hleave : leave code c' = .returned r w := by simpa using hlast
      exact ⟨0, by simp only [finish_leave hrest, hleave]⟩
  | head hmove _ ih =>
    obtain ⟨fuel, hfuel⟩ := ih
    exact exists_finish_of_moves hmove hfuel

theorem Returns.head {c c' : Config} {r : Ref} {w : World} (hmove : Moves re pins code block c c')
    (h : Returns re pins code block c' r w) : Returns re pins code block c r w := by
  obtain ⟨c'', hreach, hlast⟩ := h
  exact ⟨c'', Relation.ReflTransGen.head hmove hreach, hlast⟩

/-- The rest of a block leads to a result if the blocks after it do. -/
private theorem returns_of_finish_block {fuel : Nat} {r : Ref} {w : World}
    (hnext : ∀ c : Config, c = enter code c.world c.regs c.position →
      runBlocks re pins code block fuel c.regs c.position c.world = .ok (r, w) →
      Returns re pins code block c r w)
    (rest : List Instr) {c : Config} (hrest : c.rest = rest)
    (h : finish re pins code block fuel c = .ok (r, w)) : Returns re pins code block c r w := by
  induction rest generalizing c with
  | nil =>
    have hstep : step re pins code block c = .ok (leave code c) := by simp [step, hrest]
    simp only [finish_leave hrest] at h
    split at h
    · next r' w' hleave =>
      cases h
      exact ⟨c, .refl, by rw [hstep, hleave]⟩
    · next c' hleave =>
      refine Returns.head ?_ (hnext c' (eq_enter_of_leave hleave) h)
      rw [Moves, hstep, hleave]
  | cons i rest ih =>
    cases hrun : runInstr re pins code block c.regs i c.world with
    | error halt =>
      rw [finish, hrest, runInstrs] at h
      simp [bind, StateT.bind, Except.bind, hrun] at h
    | ok out =>
      obtain ⟨regs, w'⟩ := out
      rw [finish_instr hrest hrun] at h
      refine Returns.head ?_ (ih rfl h)
      simp [Moves, step, hrest, hrun]

/-- A run that ends gets to its result step by step. -/
theorem returns_of_finish {fuel : Nat} {c : Config} {r : Ref} {w : World}
    (h : finish re pins code block fuel c = .ok (r, w)) : Returns re pins code block c r w := by
  induction fuel generalizing c with
  | zero =>
    refine returns_of_finish_block (fun c' _ h' => ?_) c.rest rfl h
    cases h'
  | succ fuel ih =>
    refine returns_of_finish_block (fun c' henter h' => ?_) c.rest rfl h
    rw [runBlocks_succ, ← henter] at h'
    exact ih h'

/-! ### Whole runs -/

/-- More fuel does not change how a run ends. -/
theorem runBlocks_mono {fuel fuel' : Nat} (hle : fuel ≤ fuel') {regs : Array Value}
    {position : Nat} {w : World} {out : Ref × World}
    (h : runBlocks re pins code block fuel regs position w = .ok out) :
    runBlocks re pins code block fuel' regs position w = .ok out := by
  induction fuel generalizing fuel' regs position w with
  | zero => cases h
  | succ fuel ih =>
    obtain ⟨fuel', rfl⟩ : ∃ n, fuel' = n + 1 := ⟨fuel' - 1, by omega⟩
    rw [runBlocks_succ] at h ⊢
    unfold finish at h ⊢
    split at h
    · cases h
    · next regs' w' hrun =>
      split at h
      · exact h
      · exact ih (by omega) h

/-- **Runs and steps agree.** Linked code ends with a result, given enough fuel, exactly if its
steps lead from the start to that result. -/
theorem exists_runCode_iff {w w' : World} {r : Ref} :
    (∃ fuel, runCode re fuel pins code block w = .ok (r, w')) ↔
      Returns re (.constants code.constants :: pins) code block (start code w) r w' := by
  constructor
  · rintro ⟨fuel, h⟩
    cases fuel with
    | zero => cases h
    | succ fuel =>
      rw [runCode, runBlocks_succ] at h
      exact returns_of_finish h
  · intro h
    obtain ⟨fuel, hfuel⟩ := exists_finish_of_returns h
    exact ⟨fuel + 1, by rw [runCode, runBlocks_succ]; exact hfuel⟩

end Machine

end LogoEngine
