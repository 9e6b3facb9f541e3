import LogoEngine.Code.Listing
import LogoEngine.Failure.Compile

/-!
# Structural checks

A routine is **well formed** if its labels are distinct and include the entry and every target,
its instructions use registers of the types they need, and helpers are called as their signatures
say. The check reports the first flaw, block by block.
-/

namespace LogoEngine

/-- What can be wrong with a routine. -/
inductive Flaw where
  | duplicateBlock (label : Label)
  | missingEntry (label : Label)
  | unknownRegister (r : Reg)
  | wrongType (instr : Instr) (r : Reg) (got want : Ty)
  | constantOutOfRange (instr : Instr)
  | wrongArgumentCount (instr : Instr)
  | noResult (instr : Instr)
  | missingTarget (block target : Label)
  | returnsNonDatum (block : Label) (r : Reg)
  | branchesOnNonTruth (block : Label) (r : Reg)

/-- The message about a flaw. -/
def Flaw.message : Flaw → String
  | duplicateBlock label => "duplicate block " ++ label.text
  | missingEntry label => "missing entry " ++ label.text
  | unknownRegister r => "unknown register " ++ r.text
  | wrongType instr r got want =>
    instr.text ++ ": " ++ r.text ++ " is " ++ got.name ++ ", expected " ++ want.name
  | constantOutOfRange instr => instr.text ++ ": constant out of range"
  | wrongArgumentCount instr => instr.text ++ ": wrong argument count"
  | noResult instr => instr.text ++ ": helper has no result"
  | missingTarget block target => block.text ++ " jumps to missing " ++ target.text
  | returnsNonDatum block r => block.text ++ " returns non-datum " ++ r.text
  | branchesOnNonTruth block r => block.text ++ " branches on non-bool " ++ r.text

namespace Routine

variable (code : Routine)

/-- The labels of the blocks. -/
def labels : List Label :=
  code.blocks.map Block.label

/-- The first label that occurs a second time. -/
def firstDuplicate : List Label → List Label → Option Label
  | _, [] => none
  | seen, l :: rest => if l ∈ seen then some l else firstDuplicate (l :: seen) rest

/-- The type of a register. -/
def typeOf (r : Reg) : Except Flaw Ty :=
  match code.types[r.index]? with
  | some ty => .ok ty
  | none => .error (.unknownRegister r)

/-- Requires a register of an instruction to have a type. -/
def expect (instr : Instr) (r : Reg) (want : Ty) : Except Flaw Unit := do
  let got ← code.typeOf r
  if got = want then .ok () else .error (.wrongType instr r got want)

/-- Requires the arguments of a call, from a position on, to have the types of a signature. -/
def expectArgs (instr : Instr) (s : Signature) : Nat → List Reg → Except Flaw Unit
  | _, [] => .ok ()
  | index, r :: rest => do
    match s.paramAt index with
    | some want => code.expect instr r want
    | none => .ok ()
    expectArgs instr s (index + 1) rest

/-- Checks one instruction. -/
def checkInstr (instr : Instr) : Except Flaw Unit :=
  let expect := code.expect instr
  match instr with
  | .real dst _ => expect dst .real
  | .truth dst _ | .atBlock dst _ => expect dst .truth
  | .const dst slot => do
    expect dst .datum
    if slot < code.constants.size then .ok () else .error (.constantOutOfRange instr)
  | .arith dst _ lhs rhs => do
    expect dst .real
    expect lhs .real
    expect rhs .real
  | .neg dst src => do
    expect dst .real
    expect src .real
  | .compare dst _ lhs rhs => do
    expect dst .truth
    expect lhs .real
    expect rhs .real
  | .isInt dst src => do
    expect dst .truth
    expect src .real
  | .not dst src => do
    expect dst .truth
    expect src .truth
  | .and dst lhs rhs => do
    expect dst .truth
    expect lhs .truth
    expect rhs .truth
  | .move dst src => do expect src (← code.typeOf dst)
  | .call dst helper args => do
    let s := helper.signature
    if s.allows args.length then code.expectArgs instr s 0 args
    else .error (.wrongArgumentCount instr)
    match dst, s.ret with
    | some dst, some ret => expect dst ret
    | none, _ => .ok ()
    | some _, none => .error (.noResult instr)

/-- Requires a target of a block to exist. -/
def checkTarget (block target : Label) : Except Flaw Unit :=
  if target ∈ code.labels then .ok () else .error (.missingTarget block target)

/-- Checks the end of a block. -/
def checkExit (block : Label) : Exit → Except Flaw Unit
  | .ret r => do
    if (← code.typeOf r) = .datum then .ok () else .error (.returnsNonDatum block r)
  | .jump target => code.checkTarget block target
  | .branch cond yes no => do
    if (← code.typeOf cond) = .truth then .ok () else .error (.branchesOnNonTruth block cond)
    code.checkTarget block yes
    code.checkTarget block no
  | .unreachable => .ok ()

/-- Checks instructions in order. -/
def checkInstrs : List Instr → Except Flaw Unit
  | [] => .ok ()
  | i :: rest => do
    code.checkInstr i
    checkInstrs rest

/-- Checks blocks in order. -/
def checkBlocks : List Block → Except Flaw Unit
  | [] => .ok ()
  | b :: rest => do
    code.checkInstrs b.body
    code.checkExit b.label b.exit
    checkBlocks rest

/-- The first flaw of a routine, if there is one. -/
def check : Except Flaw Unit := do
  match firstDuplicate [] code.labels with
  | some l => .error (.duplicateBlock l)
  | none => .ok ()
  if code.entry ∈ code.labels then .ok () else .error (.missingEntry code.entry)
  code.checkBlocks code.blocks

/-- The check, with its flaw as a compile failure. -/
def verify : Except CompileError Unit :=
  match code.check with
  | .ok () => .ok ()
  | .error flaw => .error (.invalidCode code.name flaw.message)

end Routine

end LogoEngine
