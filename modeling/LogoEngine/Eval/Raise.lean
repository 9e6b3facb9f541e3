import LogoEngine.Eval.World

/-!
# Raising errors

An error remembers the call and the list that were running and becomes the current error, which
`ERROR` reports.
-/

namespace LogoEngine

/-- Makes an error record and the current error of it. -/
def raiseWith (code : ErrorCode) (tag : Ref) (message : String) (output : Option Ref) :
    Run Ref := do
  let frame := (← get).frames.top
  let message ← Run.making (newText message)
  let record ← Run.making (newObject (.error ⟨code, tag, message, output, frame.node, frame.line⟩))
  modify fun w => { w with currentError := some record }
  return record

/-- Makes an ordinary error about the given values. -/
def raise (code : ErrorCode) (args : List Ref) : Run Ref := do
  let h ← Run.heap
  let message := code.format (args.map fun r => h.showForm (h.displayName r))
  let tag ← Run.making (newText "ERROR")
  raiseWith code tag message none

/-- The error that `who` does not like `what` as input. -/
def raiseDoesntLike (who what : Ref) : Run Ref :=
  raise .doesntLike [who, what]

/-- The error that nobody says what to do with a value. -/
def raiseDontSay (what : Ref) : Run Ref :=
  raise .dontSay [what]

/-- The error that `source` had no value for `who`. -/
def raiseDidntOutput (source who : Ref) : Run Ref :=
  raise .didntOutput [source, who]

/-- A throw. The tag `ERROR` makes an error of the user's own, with the value as its message; any
other tag is looked for by `CATCH`. -/
def throwTag (tag : Ref) (output : Option Ref) : Run Ref := do
  let h ← Run.heap
  let key := ((h.word? tag).map Word.key).getD ""
  let output := output.filter h.isData
  if key = "ERROR" then
    match output with
    | none => raiseWith .plainThrow tag ErrorCode.plainThrow.template none
    | some message => raiseWith .customThrow tag (h.printForm message) (some message)
  else
    raiseWith .noCatch tag (ErrorCode.noCatch.format [h.showForm tag]) output

/-- A throw of a tag given by its text. -/
def throwNamed (tag : String) (output : Option Ref) : Run Ref := do
  let tag ← Run.making (newText tag)
  throwTag tag output

/-- A source that could not be compiled is an ordinary error for running code. -/
def raiseCompileFailure (source : Ref) (failure : CompileError) : Run Ref := do
  let h ← Run.heap
  let message :=
    match failure with
    | .unparsed _ => ErrorCode.noHow.format [h.showForm source]
    | other => other.message
  let tag ← Run.making (newText "ERROR")
  raiseWith .noHow tag message none

end LogoEngine
