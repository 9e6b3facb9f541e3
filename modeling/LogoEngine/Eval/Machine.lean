import LogoEngine.Eval.Helper

/-!
# The register machine

Runs linked code: a frame of registers per run, a position, and one instruction after the other. A
register of another type than the one read gives zero, false or "no value". The number of blocks
that may be entered is bounded by fuel.
-/

namespace LogoEngine

/-- The registers at the start. -/
def initialRegisters (types : Array Ty) : Array Value :=
  types.map fun
    | .real => .real 0.0
    | .truth => .truth false
    | .datum => .datum Ref.nothing

/-- The contents of a register. -/
def readReg (regs : Array Value) (r : Reg) : Value :=
  regs.getD r.index .void

/-- Writes a register. -/
def writeReg (regs : Array Value) (r : Reg) (v : Value) : Array Value :=
  regs.setIfInBounds r.index v

/-- What an instruction that is no call puts into its register. -/
def instrValue (code : Linked) (block : Int) (regs : Array Value) : Instr → Option (Reg × Value)
  | .real dst x => some (dst, .real x)
  | .truth dst b => some (dst, .truth b)
  | .const dst slot => some (dst, .datum (code.constants.getD slot Ref.nothing))
  | .atBlock dst id => some (dst, .truth (block == id))
  | .arith dst op lhs rhs =>
    some (dst, .real (op.eval (readReg regs lhs).asReal (readReg regs rhs).asReal))
  | .neg dst src => some (dst, .real (-(readReg regs src).asReal))
  | .compare dst op lhs rhs =>
    some (dst, .truth (op.eval (readReg regs lhs).asReal (readReg regs rhs).asReal))
  | .isInt dst src => some (dst, .truth (isInt32 (readReg regs src).asReal))
  | .not dst src => some (dst, .truth !(readReg regs src).asTruth)
  | .and dst lhs rhs =>
    some (dst, .truth ((readReg regs lhs).asTruth && (readReg regs rhs).asTruth))
  | .move dst src => some (dst, readReg regs src)
  | .call _ _ _ => none

/-- Runs one instruction. -/
def runInstr (re : Reenter) (pins : Pins) (code : Linked) (block : Int) (regs : Array Value)
    (i : Instr) : Run (Array Value) :=
  match i with
  | .call dst helper args => do
    let out ← callHelper re (.registers regs :: pins) helper (args.map (readReg regs))
    match dst with
    | some dst => return writeReg regs dst out
    | none => return regs
  | i =>
    match instrValue code block regs i with
    | some (dst, v) => return writeReg regs dst v
    | none => return regs

/-- Runs instructions in order. -/
def runInstrs (re : Reenter) (pins : Pins) (code : Linked) (block : Int) :
    Array Value → List Instr → Run (Array Value)
  | regs, [] => return regs
  | regs, i :: rest => do
    let regs ← runInstr re pins code block regs i
    runInstrs re pins code block regs rest

/-- Runs blocks from a position on, until one returns. -/
def runBlocks (re : Reenter) (pins : Pins) (code : Linked) (block : Int) :
    Nat → Array Value → Nat → Run Ref
  | 0, _, _ => throw .outOfFuel
  | fuel + 1, regs, position =>
    match code.blocks[position]? with
    | none => return Ref.nothing
    | some b => do
      let regs ← runInstrs re pins code block regs b.body
      match b.exit with
      | .ret value => return (readReg regs value).asDatum
      | .jump target => runBlocks re pins code block fuel regs target
      | .branch cond yes no =>
        runBlocks re pins code block fuel regs (if (readReg regs cond).asTruth then yes else no)
      | .unreachable => return Ref.nothing

/-- Runs linked code for the block of the given number. -/
def runCode (re : Reenter) (fuel : Nat) (pins : Pins) (code : Linked) (block : Int) : Run Ref :=
  runBlocks re (.constants code.constants :: pins) code block fuel
    (initialRegisters code.types) code.entry

end LogoEngine
