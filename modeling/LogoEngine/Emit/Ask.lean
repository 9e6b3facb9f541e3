import LogoEngine.Emit.Retry

/-!
# Data, variables, output and turtle

Each of these primitives is one helper call. The helper reports bad inputs by an error, which is
handed on.
-/

namespace LogoEngine.Emit

/-- Calls a helper and hands its token on, if it gives one. -/
def ask (helper : Helper) (args : List Reg) : Emit Reg := do
  let result ← call helper args
  passToken result
  return result

/-- Calls a helper with the node and its inputs. -/
def askWithNode (helper : Helper) (node : Ref) (rs : List Reg) : Emit Reg := do
  let self ← const node
  ask helper (self :: rs)

/-- Assigns to the variable that a word names, for `MAKE`. -/
def assign (who node : Ref) (name value : Reg) : Emit Reg := do
  let name ← datumOfKind who wordMask name
  askWithNode .setVar node [name, value]

/-- Writes values, for `PRINT`, `SHOW` and `TYPE`. -/
def write (mode : WriteMode) (node : Ref) (rs : List Reg) : Emit Reg := do
  perform (.write mode) rs
  const node

/-- A call of a user procedure. -/
def procedureCall (node : Ref) (rs : List Reg) : Emit Reg := do
  let self ← const node
  call .runProcedure (self :: rs)

/-- The value of a variable, which must have one. -/
def variableValue (name : Ref) : Emit Reg := do
  let nameReg ← const name
  let value ← call .getVar [nameReg]
  let bound ← call (.hasTag dataMask) [value]
  let unbound ← not bound
  returnWhen unbound (call .errNoValue [nameReg])
  return value

end LogoEngine.Emit
