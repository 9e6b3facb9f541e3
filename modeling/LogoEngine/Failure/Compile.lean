/-!
# Compile failures

Why a parse could not be turned into code that runs.
-/

namespace LogoEngine

/-- A failure between a parse and linked code. -/
inductive CompileError where
  /-- A list was to be run, but nothing ever parsed it. -/
  | unparsed (shown : String)
  /-- A node cannot be lowered where it stands. -/
  | unsupported (name reason : String)
  /-- The number of inputs is outside what a primitive accepts. -/
  | arity (name : String) (min : Nat) (max : String) (got : Nat)
  /-- Lowered code failed the structural checks. -/
  | invalidCode (routine message : String)
  /-- Lowered code could not be linked. -/
  | backend (message : String)
  /-- A configuration could not be read. -/
  | config (message : String)
deriving DecidableEq, Repr

/-- The message of a failure. -/
def CompileError.message : CompileError → String
  | unparsed shown => "no parse attached to list " ++ shown
  | unsupported name reason => "cannot lower " ++ name ++ ": " ++ reason
  | arity name min max got =>
    name ++ " takes " ++ toString min ++ ".." ++ max ++ " inputs, got " ++ toString got
  | invalidCode routine message => "invalid LIR in " ++ routine ++ ": " ++ message
  | backend message => "backend failed: " ++ message
  | config message => "bad configuration: " ++ message

end LogoEngine
