import LogoEngine.Arithmetic.Compare
import LogoEngine.Code.Helper
import LogoEngine.Heap.Object

/-!
# Compiled code

A **routine** is the code of one instruction list: blocks of instructions over typed registers. It
is entered with the number of a block to start from, which its entry block may test. Registers can
be written more than once.
-/

namespace LogoEngine

/-- A register. -/
structure Reg where
  index : Nat
deriving DecidableEq, Repr

/-- The name of a block. -/
structure Label where
  index : Nat
deriving DecidableEq, Repr

/-- An instruction; `dst` is the register it writes. -/
inductive Instr where
  | real (dst : Reg) (x : Float)
  | truth (dst : Reg) (b : Bool)
  /-- Loads a constant of the routine. -/
  | const (dst : Reg) (slot : Nat)
  /-- Whether the routine was entered for the given block. -/
  | atBlock (dst : Reg) (id : Int)
  | arith (dst : Reg) (op : ArithOp) (lhs rhs : Reg)
  | neg (dst src : Reg)
  | compare (dst : Reg) (op : CompareOp) (lhs rhs : Reg)
  /-- Whether a double is a 32-bit integer. -/
  | isInt (dst src : Reg)
  | not (dst src : Reg)
  | and (dst lhs rhs : Reg)
  | move (dst src : Reg)
  /-- Calls a helper; without `dst` its result is dropped. -/
  | call (dst : Option Reg) (helper : Helper) (args : List Reg)

/-- How a block ends. -/
inductive Exit where
  | ret (value : Reg)
  | jump (target : Label)
  | branch (cond : Reg) (yes no : Label)
  | unreachable
deriving DecidableEq, Repr

/-- Instructions that run one after the other, and where control goes from them. -/
structure Block where
  label : Label
  body : List Instr
  exit : Exit

/-- The code of one instruction list. -/
structure Routine where
  name : String
  blocks : List Block
  entry : Label
  /-- The types of the registers. -/
  types : Array Ty
  constants : Array Ref

/-- The labels a block can lead to. -/
def Exit.targets : Exit → List Label
  | ret _ | unreachable => []
  | jump target => [target]
  | branch _ yes no => [yes, no]

/-- The number of registers. -/
def Routine.registerCount (code : Routine) : Nat :=
  code.types.size

end LogoEngine
