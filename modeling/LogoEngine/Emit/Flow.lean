import LogoEngine.Emit.Cast

/-!
# Control structures

Loops and conditionals run their instruction lists through the evaluator and hand tokens straight
back. `STOP`, `OUTPUT`, `GOTO` and `THROW` make a token and return it.

Each function is given the node and its name, and the registers of the inputs.
-/

namespace LogoEngine.Emit

/-- A list used as a condition is run for its value. -/
def runIfList (who : Ref) (value : Reg) : Emit Reg := do
  let out ← freshReg .datum
  move out value
  let continue_ ← whenKind listMask value
  let result ← call .runList [value]
  passToken result
  let result ← requireValue who result
  deliver out result continue_ continue_
  return out

/-- A condition as a truth value. -/
def condition (who : Ref) (cond : Reg) : Emit Reg := do
  match ← typeOf cond with
  | .truth => return cond
  | _ =>
    let value ← runIfList who cond
    truthFromDatum who value

/-- A list or word to run. -/
def runnable (who : Ref) (src : Reg) : Emit Reg :=
  datumOfKind who wordOrListMask src

/-- Runs a list in place, for `RUN`; whatever it leaves is the result. -/
def run (who : Ref) (list : Reg) : Emit Reg := do
  let list ← runnable who list
  call .runList [list]

/-- Runs a list and puts its value into a list, for `RUNRESULT`. -/
def runResult (who : Ref) (list : Reg) : Emit Reg := do
  let list ← runnable who list
  let result ← call .runResult [list]
  passToken result
  return result

/-- A token leaves the loop and the routine, and the number of repetitions is put back. -/
def leaveLoop (value saved : Reg) : Emit Unit := do
  let continue_ ← whenKind flowMask value
  perform .setRepcount [saved]
  endBlock (.ret value) continue_

/-- Data of the last pass is left at the end of the loop. In other passes it goes to the label,
which is opened. -/
def keepLast (value : Reg) (dontSay : Label) : Option (Reg × Reg × Label) → Emit Unit
  | some (isLast, result, exit) => do
    let keep ← freshLabel
    endBlock (.branch isLast keep dontSay) keep
    deliver result value exit dontSay
  | none => endBlock (.jump dontSay) dontSay

/-- Data that nobody asked for is an error, and the number of repetitions is put back. Another block
is opened. -/
def refuseData (value saved : Reg) (next : Label) : Emit Unit := do
  perform .setRepcount [saved]
  let error ← call .errDontSay [value]
  endBlock (.ret error) next

/-- What one pass of a loop led to. A token leaves the routine; data leaves the loop in the last
pass, if there is one, and is an error otherwise; without data the code goes on. The number of
repetitions is put back on every way out. `last` tells whether this is the last pass, where to put
its data and where the loop ends. -/
def passOutcome (value saved : Reg) (last : Option (Reg × Reg × Label)) : Emit Unit := do
  leaveLoop value saved
  let continue_ ← whenKind dataMask value
  let dontSay ← freshLabel
  keepLast value dontSay last
  refuseData value saved continue_

/-- The register of a result that is the node, for no value, until something else is found. -/
def ownResult (node : Ref) : Emit Reg := do
  let result ← freshReg .datum
  let self ← const node
  move result self
  return result

/-- Counts a pass. -/
def countPass (counter one : Reg) : Emit Unit := do
  let next ← arith .add counter one
  move counter next

/-- Runs a list a number of times, for `REPEAT`; the passes are counted from one. -/
def repetition (who node : Ref) (times list : Reg) : Emit Reg := do
  let times ← count who times
  let list ← runnable who list
  let saved ← call .repcount []
  let result ← ownResult node
  let counter ← freshReg .real
  let one ← real 1.0
  move counter one
  let head ← freshLabel
  let body ← freshLabel
  let exit ← freshLabel
  endBlock (.jump head) head
  let more ← compare .le counter times
  endBlock (.branch more body exit) body
  perform .setRepcount [counter]
  let value ← call .runList [list]
  let isLast ← compare .eq counter times
  passOutcome value saved (some (isLast, result, exit))
  countPass counter one
  endBlock (.jump head) exit
  perform .setRepcount [saved]
  return result

/-- Runs a list until a token or an error ends the loop, for `FOREVER`. -/
def forever (who node : Ref) (list : Reg) : Emit Reg := do
  let list ← runnable who list
  let saved ← call .repcount []
  let counter ← freshReg .real
  let one ← real 1.0
  move counter one
  let head ← freshLabel
  endBlock (.jump head) head
  perform .setRepcount [counter]
  let value ← call .runList [list]
  passOutcome value saved none
  countPass counter one
  let after ← freshLabel
  endBlock (.jump head) after
  const node

/-- Runs the second of two lists. Without one there is no value. -/
def runOther (node : Ref) : Option Reg → Emit Reg
  | some list => call .runList [list]
  | none => const node

/-- Runs one of two lists, for `IF` and `IFELSE`; without a second list the result is no value. -/
def conditional (who node : Ref) (cond yes : Reg) (no : Option Reg) : Emit Reg := do
  let cond ← condition who cond
  let yes ← runnable who yes
  let no ← no.mapM (runnable who)
  let result ← freshReg .datum
  let thenLabel ← freshLabel
  let elseLabel ← freshLabel
  let merge ← freshLabel
  endBlock (.branch cond thenLabel elseLabel) thenLabel
  let value ← call .runList [yes]
  deliver result value merge elseLabel
  let value ← runOther node no
  deliver result value merge merge
  return result

/-- Remembers a condition in the frame, for `TEST`. -/
def test (who node : Ref) (cond : Reg) : Emit Reg := do
  let cond ← condition who cond
  perform .setTest [cond]
  const node

/-- Whether the last `TEST` was as wanted. -/
def testedAs (wanted : Bool) : Emit Reg := do
  let state ← call .testedState []
  if wanted then return state else not state

/-- Runs a list if the last `TEST` was as wanted, for `IFTRUE` and `IFFALSE`. -/
def ifTested (wanted : Bool) (who node : Ref) (list : Reg) : Emit Reg := do
  let list ← runnable who list
  let tested ← call .isTested []
  let untested ← not tested
  returnWhen untested do
    let name ← const who
    call .errNoTest [name]
  let cond ← testedAs wanted
  let result ← ownResult node
  let run ← freshLabel
  let merge ← freshLabel
  endBlock (.branch cond run merge) run
  let value ← call .runList [list]
  deliver result value merge merge
  return result

/-- Leaves the routine with a token that a helper makes. -/
def leaveWith (node : Ref) (helper : Helper) (args : List Reg) : Emit Reg := do
  let token ← call helper args
  returnNow token
  const node

/-- Leaves with a jump to a label, for `GOTO`. -/
def goto (node : Ref) (label : Reg) : Emit Reg := do
  let self ← const node
  leaveWith node .gotoToken [self, label]

/-- Runs a list and has the evaluator look at its errors, for `CATCH`. -/
def catching (who node : Ref) (tag list : Reg) : Emit Reg := do
  let list ← runnable who list
  let stash ← call .beginCatch []
  let result ← call .runList [list]
  let self ← const node
  let out ← call .endCatch [stash, tag, self, result]
  passToken out
  return out

/-- Leaves with an error that carries a tag and perhaps a value, for `THROW`. -/
def throwing (node : Ref) (tag : Reg) (value : Option Reg) : Emit Reg := do
  let value ←
    match value with
    | some value => pure value
    | none => nothing
  leaveWith node .throwTag [tag, value]

/-- Leaves with the value that ends a pause, for `CONTINUE`. -/
def resume (node : Ref) (value : Option Reg) : Emit Reg := do
  let value ←
    match value with
    | some value => pure value
    | none => nothing
  leaveWith node .continueToken [value]

end LogoEngine.Emit
