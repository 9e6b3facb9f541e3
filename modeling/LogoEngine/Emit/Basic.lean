import LogoEngine.Code.Routine
import LogoEngine.Failure.Compile

/-!
# Drafts

A routine under construction: the finished blocks, the open block that instructions are added to,
and the registers, labels and constants handed out so far. A constant is stored once per object.

`Emit` adds to a draft and cannot fail; `Lower` can also fail. What was emitted before a failure
is dropped by the caller, except for the labels of `TAG` that were met.
-/

namespace LogoEngine

/-- A routine under construction. -/
structure Draft where
  /-- Finished blocks. -/
  blocks : Array Block := #[]
  /-- The label of the open block. -/
  label : Label := ⟨0⟩
  /-- The instructions of the open block. -/
  body : Array Instr := #[]
  /-- The next label; label zero starts the routine. -/
  nextLabel : Nat := 1
  types : Array Ty := #[]
  constants : Array Ref := #[]
  /-- Labels of `TAG` with where they lead. -/
  tags : List (String × LabelTarget) := []

/-- Adds to a draft. -/
abbrev Emit := StateM Draft

/-- Adds to a draft, or fails. -/
abbrev Lower := ExceptT CompileError Emit

namespace Emit

/-- A new register. -/
def freshReg (ty : Ty) : Emit Reg :=
  fun d => (⟨d.types.size⟩, { d with types := d.types.push ty })

/-- A new label. -/
def freshLabel : Emit Label :=
  fun d => (⟨d.nextLabel⟩, { d with nextLabel := d.nextLabel + 1 })

/-- The type of a register. -/
def typeOf (r : Reg) : Emit Ty :=
  fun d => (d.types.getD r.index .datum, d)

/-- Adds an instruction to the open block. -/
def instr (i : Instr) : Emit Unit :=
  modify fun d => { d with body := d.body.push i }

/-- Closes the open block and opens another. -/
def endBlock (exit : Exit) (next : Label) : Emit Unit :=
  modify fun d =>
    { d with
      blocks := d.blocks.push ⟨d.label, d.body.toList, exit⟩
      label := next
      body := #[] }

/-! ### Instructions -/

/-- Loads a number. -/
def real (x : Float) : Emit Reg := do
  let dst ← freshReg .real
  instr (.real dst x)
  return dst

/-- Loads a truth value. -/
def truth (b : Bool) : Emit Reg := do
  let dst ← freshReg .truth
  instr (.truth dst b)
  return dst

/-- The slot of a constant, which is added if it is new. -/
def slot (r : Ref) : Emit Nat :=
  fun d =>
    match d.constants.findIdx? (· == r) with
    | some index => (index, d)
    | none => (d.constants.size, { d with constants := d.constants.push r })

/-- Loads an object. -/
def const (r : Ref) : Emit Reg := do
  let index ← slot r
  let dst ← freshReg .datum
  instr (.const dst index)
  return dst

/-- Loads "no value". -/
def nothing : Emit Reg :=
  const Ref.nothing

/-- Copies a register. -/
def move (dst src : Reg) : Emit Unit :=
  instr (.move dst src)

/-- Computes with two numbers. -/
def arith (op : ArithOp) (lhs rhs : Reg) : Emit Reg := do
  let dst ← freshReg .real
  instr (.arith dst op lhs rhs)
  return dst

/-- Compares two numbers. -/
def compare (op : CompareOp) (lhs rhs : Reg) : Emit Reg := do
  let dst ← freshReg .truth
  instr (.compare dst op lhs rhs)
  return dst

/-- Tests for a 32-bit integer. -/
def isInt (src : Reg) : Emit Reg := do
  let dst ← freshReg .truth
  instr (.isInt dst src)
  return dst

/-- Negates a truth value. -/
def not (src : Reg) : Emit Reg := do
  let dst ← freshReg .truth
  instr (.not dst src)
  return dst

/-- The conjunction of two truth values. -/
def and (lhs rhs : Reg) : Emit Reg := do
  let dst ← freshReg .truth
  instr (.and dst lhs rhs)
  return dst

/-- Calls a helper for its result. -/
def call (helper : Helper) (args : List Reg) : Emit Reg := do
  let dst ← freshReg (helper.signature.ret.getD .datum)
  instr (.call (some dst) helper args)
  return dst

/-- Calls a helper that has no result. -/
def perform (helper : Helper) (args : List Reg) : Emit Unit :=
  instr (.call none helper args)

/-! ### Ways out -/

/-- Returns from the routine. What follows lands in a block that nothing leads to. -/
def returnNow (value : Reg) : Emit Unit := do
  let dead ← freshLabel
  endBlock (.ret value) dead

/-- Returns a value if a condition holds, where `build` computes the value only then. -/
def returnWhen (cond : Reg) (build : Emit Reg) : Emit Unit := do
  let leave ← freshLabel
  let continue_ ← freshLabel
  endBlock (.branch cond leave continue_) leave
  let value ← build
  endBlock (.ret value) continue_

/-- Hands a token straight back to the caller. -/
def passToken (value : Reg) : Emit Unit := do
  let isFlow ← call (.hasTag flowMask) [value]
  returnWhen isFlow (return value)

/-! ### Ways on -/

/-- Goes on in a new block with a value of some kinds. All other values go to the label. -/
def whenKind (mask : Nat) (value : Reg) : Emit Label := do
  let isKind ← call (.hasTag mask) [value]
  let yes ← freshLabel
  let no ← freshLabel
  endBlock (.branch isKind yes no) yes
  return no

/-- Leaves a value where it is looked for, and goes where it is looked for. Another block is
opened. -/
def deliver (dst src : Reg) (target next : Label) : Emit Unit := do
  move dst src
  endBlock (.jump target) next

end Emit

end LogoEngine
