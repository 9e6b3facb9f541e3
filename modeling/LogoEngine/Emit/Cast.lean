import LogoEngine.Emit.Retry

/-!
# Casts

`cast` reconciles what a node produced with what its consumer asked for. Native numbers and truth
values become words where a value on the heap is wanted, and values are read as numbers or truth
values through a retry loop; a missing value, or one that nobody asked for, is an error.
-/

namespace LogoEngine.Emit

/-- A statement must not leave data behind. -/
def requireNothing (src : Reg) : Emit Reg := do
  let isData ← call (.hasTag dataMask) [src]
  returnWhen isData (call .errDontSay [src])
  return src

/-- An operand must have a value. -/
def requireValue (who : Ref) (src : Reg) : Emit Reg := do
  let isData ← call (.hasTag dataMask) [src]
  let missing ← not isData
  returnWhen missing do
    let name ← const who
    call .errDidntOutput [src, name]
  return src

/-- Reads a value as the native type asked for. -/
def nativeFromDatum (who : Ref) (src : Reg) (request : Request) : Emit Reg :=
  if request.contains .truth then truthFromDatum who src else realFromDatum who src

/-- A register of the type asked for, for code that is never reached. -/
def placeholder (request : Request) : Emit Reg :=
  if request.contains .real then real 0.0
  else if request.contains .truth then truth false
  else nothing

/-- A native value that became a word. Numbers and truth values never stand for one another. -/
def castBoxed (word : Reg) (who : Ref) (request : Request) : Emit Reg := do
  if request.contains .datum then
    return word
  else if request.contains .real || request.contains .truth then
    let error ← dislike who word
    returnNow error
    placeholder request
  else
    let error ← call .errDontSay [word]
    returnNow error
    return word

/-- A value on the heap, of a node that claims to produce `produced`. -/
def castDatum (src : Reg) (who : Ref) (produced request : Request) : Emit Reg := do
  if produced = request then
    return src
  else if produced = .nothing then
    if request.contains .nothing then
      return src
    else
      let name ← const who
      let error ← call .errDidntOutput [src, name]
      returnNow error
      return src
  else if produced = .datumOrNothing then
    passToken src
    if request = .nothing then
      requireNothing src
    else if request.contains .datum then
      if request.contains .nothing then return src else requireValue who src
    else
      let value ← requireValue who src
      nativeFromDatum who value request
  else if request.contains .datum then
    return src
  else if request.contains .nothing then
    let error ← call .errDontSay [src]
    returnNow error
    return src
  else
    nativeFromDatum who src request

/-- Brings what a node produced to the form its consumer `who` asked for. -/
def cast (src : Reg) (who : Ref) (produced request : Request) : Emit Reg := do
  match ← typeOf src with
  | .real =>
    if request.contains .real then return src
    else
      let word ← call .wordFromReal [src]
      castBoxed word who request
  | .truth =>
    if request.contains .truth then return src
    else
      let word ← call .wordFromTruth [src]
      castBoxed word who request
  | .datum => castDatum src who produced request

end LogoEngine.Emit
