import LogoEngine.Eval.Engine

/-!
# The top level

Running a list as the user's own input: a value comes out, or nothing, or a **signal** that tells
why the run ended otherwise.
-/

namespace LogoEngine

/-- How a run at the top level ended, other than normally. -/
inductive Signal where
  /-- An error nobody caught. -/
  | error (code : ErrorCode) (message : String) (record : Ref)
  /-- A throw nobody caught. -/
  | thrown (tag : String) (value : Option Ref)
  /-- The user said `BYE`, or `SYSTEM` was thrown. -/
  | system
  /-- A throw of `TOPLEVEL`, or a pause that was given up. -/
  | toplevel

/-- The message of a signal. -/
def Signal.message : Signal → String
  | error _ message _ => message
  | thrown tag _ => "Can't find catch tag for " ++ tag
  | system => "system exit"
  | toplevel => "return to top level"

/-- The signal for an error that reached the top level. -/
def signalFor (h : Heap) (record : Ref) (e : ErrorRecord) : Signal :=
  if e.code = .noCatch then
    let tag := h.tagKey e
    if tag = "SYSTEM" then .system
    else if tag = "TOPLEVEL" then .toplevel
    else .thrown tag e.output
  else .error e.code (h.printForm e.message) record

/-- The signal for a way out or a jump that found no procedure to leave. -/
def strayToken (source : Ref) : Run Signal := do
  let record ← raise .notInsideProcedure [source]
  let h ← Run.heap
  let message := (((h.get record).error?).map fun e => h.printForm e.message).getD ""
  return .error .notInsideProcedure message record

/-- Runs a list at the top level. -/
def execute (fuel : Nat) (pins : Pins) (list : Ref) : Run (Except Signal (Option Ref)) := do
  let result ← (engine fuel).list pins list
  let h ← Run.heap
  match h.get result with
  | .error e => return .error (signalFor h result e)
  | .ret source _ | .goto source _ | .continuation source _ _ =>
    return .error (← strayToken source)
  | object => return .ok (if object.isData then some result else none)

/-- Runs a single node, compiled on its own. -/
def runNode (fuel : Nat) (pins : Pins) (node : Ref) : Run Ref := do
  match ← (compileNode (.refs [node] :: pins) node).run with
  | .error failure => raiseCompileFailure node failure
  | .ok entry => runCode (engine fuel) fuel (.refs [node] :: pins) entry.code 0

end LogoEngine
