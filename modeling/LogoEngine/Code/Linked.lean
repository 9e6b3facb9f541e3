import LogoEngine.Code.Listing
import LogoEngine.Failure.Compile

/-!
# Linking

Linking replaces the labels of a routine by the positions of their blocks. Where two blocks share
a label the later one counts. There are two linkers, which differ in what they look at first and
in how they report a label without a block.
-/

namespace LogoEngine

/-- The linkers to choose from. -/
inductive Backend where
  | machine
  | native
deriving DecidableEq, Repr

/-- The name a linker goes by. -/
def Backend.name : Backend → String
  | machine => "machine"
  | native => "cranelift"

/-- The linker of a name, in any ASCII case. -/
def Backend.ofName? (name : String) : Option Backend :=
  let key := String.ofList (name.toList.map Char.toLower)
  if key = "machine" then some machine
  else if key = "jit" ∨ key = "cranelift" then some native
  else none

/-- The end of a linked block. -/
inductive LinkedExit where
  | ret (value : Reg)
  | jump (target : Nat)
  | branch (cond : Reg) (yes no : Nat)
  | unreachable
deriving DecidableEq, Repr

/-- A block whose targets are positions. -/
structure LinkedBlock where
  body : List Instr
  exit : LinkedExit

/-- A routine that is ready to run. -/
structure Linked where
  name : String
  blocks : Array LinkedBlock
  entry : Nat
  types : Array Ty
  constants : Array Ref

/-- The position of the last block with a label, counted from `index`. -/
def lastPosition (label : Label) : Nat → List Block → Option Nat
  | _, [] => none
  | index, b :: rest =>
    match lastPosition label (index + 1) rest with
    | some found => some found
    | none => if b.label = label then some index else none

namespace Routine

variable (code : Routine)

/-- Replaces the targets of a block, where `resolve` finds positions. -/
def linkExit (resolve : Label → Except CompileError Nat) : Exit → Except CompileError LinkedExit
  | .ret value => .ok (.ret value)
  | .jump target => do return .jump (← resolve target)
  | .branch cond yes no => do
    let yes ← resolve yes
    return .branch cond yes (← resolve no)
  | .unreachable => .ok .unreachable

/-- Links blocks in order. -/
def linkBlocks (resolve : Label → Except CompileError Nat) :
    List Block → Except CompileError (List LinkedBlock)
  | [] => .ok []
  | b :: rest => do
    let exit ← linkExit resolve b.exit
    return ⟨b.body, exit⟩ :: (← linkBlocks resolve rest)

/-- The position of a label, or the failure to report. -/
def resolve (failure : Label → String) (label : Label) : Except CompileError Nat :=
  match lastPosition label 0 code.blocks with
  | some index => .ok index
  | none => .error (.backend (failure label))

/-- How a linker reports a target without a block. -/
def missingTargetText (backend : Backend) (label : Label) : String :=
  match backend with
  | .machine => code.name ++ ": no block " ++ label.text
  | .native => "JIT: invalid LIR: unknown target " ++ label.text

/-- How a linker reports an entry without a block. -/
def missingEntryText (backend : Backend) (label : Label) : String :=
  match backend with
  | .machine => code.name ++ ": no block " ++ label.text
  | .native => "JIT: invalid LIR: missing entry " ++ label.text

/-- Links a routine. The machine's linker looks at the blocks before the entry, the native one
at the entry first. -/
def link (backend : Backend) : Except CompileError Linked := do
  let entry := code.resolve (code.missingEntryText backend) code.entry
  let blocks := linkBlocks (code.resolve (code.missingTargetText backend)) code.blocks
  match backend with
  | .machine =>
    let blocks ← blocks
    return ⟨code.name, blocks.toArray, ← entry, code.types, code.constants⟩
  | .native =>
    let entry ← entry
    return ⟨code.name, (← blocks).toArray, entry, code.types, code.constants⟩

end Routine

end LogoEngine
