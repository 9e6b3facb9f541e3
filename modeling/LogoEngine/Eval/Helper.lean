import LogoEngine.Decimal.Fixed
import LogoEngine.Eval.Data

/-!
# Answering helpers

What the evaluator does when compiled code calls a helper. Arguments of the wrong type read as
zero, false or "no value", and missing ones too. Helpers that run more code do so through
`Reenter`, which the engine provides.
-/

namespace LogoEngine

/-- How a helper runs more code; what suspended computations hold on to is passed along. -/
structure Reenter where
  /-- Runs an instruction list in the current frame. -/
  list : Pins → Ref → Run Ref
  /-- Calls the procedure a node names. -/
  procedure : Pins → Ref → List Ref → Run Ref

/-! ### Arguments -/

/-- The object at a position. -/
def datumArg (args : List Value) (i : Nat) : Ref :=
  (args[i]?.getD .void).asDatum

/-- The number at a position. -/
def realArg (args : List Value) (i : Nat) : Float :=
  (args[i]?.getD .void).asReal

/-- The truth value at a position. -/
def truthArg (args : List Value) (i : Nat) : Bool :=
  (args[i]?.getD .void).asTruth

/-- The objects from a position on. -/
def restArgs (args : List Value) (start : Nat) : List Ref :=
  (args.drop start).map Value.asDatum

/-! ### Output -/

/-- Writes values for `PRINT`, `SHOW` and `TYPE`. -/
def writeValues (mode : WriteMode) (values : List Ref) : Run Unit := do
  let h ← Run.heap
  Run.write <|
    match mode with
    | .printing => String.intercalate " " (values.map h.printForm) ++ "\n"
    | .showing => String.intercalate " " (values.map h.showForm) ++ "\n"
    | .typing => String.join (values.map h.printForm)

/-- Writes the message of an error. -/
def writeError (r : Ref) : Run Unit := do
  let h ← Run.heap
  match (h.get r).error? with
  | some e => Run.write (h.printForm e.message ++ "\n")
  | none => return ()

/-- The largest width and number of places that can be formatted. -/
def maxFormat : Nat := 65535

/-- A number right-aligned in a width and with a number of places, for `FORM`. -/
def formText (value width places : Float) : Run Ref := do
  let width := (if width > 0.0 then width else 0.0).toUInt64.toNat
  let places := places.toUInt64.toNat
  if width ≤ maxFormat ∧ places ≤ maxFormat then
    Run.making (newText (Decimal.alignRight width (Decimal.fixed value places)))
  else throw .formatTooWide

/-! ### Errors and catching -/

/-- Asks the host for a value. -/
def pauseForValue : Run Ref := do
  match ← Run.withHost Host.pause with
  | some r => return r
  | none => throwNamed "TOPLEVEL" none

/-- Whether `ERRACT` asks for a pause. -/
def erractSet (w : World) : Bool :=
  match w.frames.get? "ERRACT" with
  | none => false
  | some r =>
    match w.heap.get r with
    | .word v => !v.isEmpty && v.truth? != some false
    | .list cell => cell.pair.isSome
    | .array _ _ => true
    | _ => false

/-- Takes `ERRACT` away for the time of a catch; its value. -/
def beginCatch : Run Ref := do
  let w ← get
  let stash := (w.frames.get? "ERRACT").getD Ref.nothing
  if w.heap.isData stash then
    Run.modifyFrames fun fs => fs.set "ERRACT" Ref.nothing
  return stash

/-- Ends a catch: `ERRACT` is put back, and the result is looked at. The tag `ERROR` takes every
error but a throw of another tag, and leaves no value. A throw of the same tag is taken and its
value is the result. All else goes on up. -/
def endCatch (stash tag node result : Ref) : Run Ref := do
  let h ← Run.heap
  if h.isData stash then
    Run.modifyFrames fun fs => fs.set "ERRACT" stash
  match (h.get result).error? with
  | none => return result
  | some e =>
    let caught := h.keyOf tag
    let thrown := h.tagKey e
    if caught = "ERROR" ∧ (e.code ≠ .noCatch ∨ thrown = "ERROR") then
      return node
    else if e.code = .noCatch ∧ thrown = caught then
      modify fun w => { w with currentError := none }
      return e.output.getD node
    else
      return result

/-- Code, message, call and line of the current error, which is then forgotten, for `ERROR`. -/
def errorList : Run Ref := do
  let w ← get
  set { w with currentError := none }
  match w.currentError.bind fun r => (w.heap.get r).error? with
  | none => Run.making newEmpty
  | some e =>
    let call ←
      match e.procedure with
      | some node => pure (w.heap.displayName node)
      | none => Run.making newEmpty
    let line ←
      match e.line with
      | some line => pure line
      | none => Run.making newEmpty
    Run.making do
      let code ← newNumber (Float.ofNat e.code.number)
      newList [code, e.message, call, line]

/-! ### Variables -/

/-- The names a value gives to `LOCAL`: a word, or the words of a list. The flag tells whether all
of the value could be used. -/
def localNames (h : Heap) (r : Ref) : List String × Bool :=
  match h.get r with
  | .word w => ([w.key], true)
  | .list _ =>
    let words := (h.items r).map h.word?
    ((words.takeWhile Option.isSome).filterMap (Option.map Word.key), words.all Option.isSome)
  | _ => ([], false)

/-- Binds names in the innermost frame, up to the first value that gives none, for `LOCAL`. -/
def makeLocal (node : Ref) : List Ref → Run Ref
  | [] => return node
  | r :: rest => do
    let (names, complete) := localNames (← Run.heap) r
    Run.modifyFrames fun fs => names.foldl (fun fs key => fs.bind key Ref.nothing) fs
    if complete then makeLocal node rest else raiseDoesntLike node r

/-! ### Turtle -/

/-- The result of a turtle command. -/
def turtleResult (outcome : Except ErrorCode Unit) : Run Ref :=
  match outcome with
  | .ok () => return Ref.nothing
  | .error code => raise code []

/-- The coordinates of a position. -/
def position? (h : Heap) (r : Ref) : Option (Float × Float) :=
  match h.items r with
  | [x, y] => do
    let x ← h.number? x
    let y ← h.number? y
    some (x, y)
  | _ => none

/-- Does something with a position, or dislikes it. -/
def atPosition (node pos : Ref) (act : Float → Float → Run Ref) : Run Ref := do
  match position? (← Run.heap) pos with
  | some (x, y) => act x y
  | none => raiseDoesntLike node pos

/-- The heading from one point to another in degrees, from 0 up to 360. The arc tangent lies
within half a turn of zero. -/
def headingTo (dx dy : Float) : Float :=
  let angle := Float.atan2 dx dy * (180.0 / 3.141592653589793)
  if angle < 0.0 then angle + 360.0 else angle

/-! ### Random numbers -/

/-- Draws an integer. -/
def drawBetween (low high : Int64) : Run Float :=
  modifyGet fun w =>
    let (n, random) := w.random.between low high
    (n.toFloat, { w with random })

/-! ### The helpers -/

/-- Does what a helper is for. -/
def callHelper (re : Reenter) (pins : Pins) (helper : Helper) (args : List Value) : Run Value :=
  match helper with
  | .wordFromReal => .datum <$> Run.making (newNumber (realArg args 0))
  | .wordFromTruth => .datum <$> Run.making (newTruth (truthArg args 0))
  | .realOf => return .real (((← Run.heap).number? (datumArg args 0)).getD 0.0)
  | .realValid => return .truth ((← Run.heap).number? (datumArg args 0)).isSome
  | .truthOf => return .truth (((← Run.heap).truth? (datumArg args 0)).getD false)
  | .truthValid => return .truth ((← Run.heap).truth? (datumArg args 0)).isSome
  | .hasTag mask => return .truth (((← Run.heap).get (datumArg args 0)).hasTag mask)
  | .errDoesntLike => .datum <$> raiseDoesntLike (datumArg args 0) (datumArg args 1)
  | .errDontSay => .datum <$> raiseDontSay (datumArg args 0)
  | .errDidntOutput => .datum <$> raiseDidntOutput (datumArg args 0) (datumArg args 1)
  | .errNoValue => .datum <$> raise .noValue [datumArg args 0]
  | .errNotEnoughInputs => .datum <$> raise .notEnoughInputs [datumArg args 0]
  | .errTooManyInputs => .datum <$> raise .tooManyInputs [datumArg args 0]
  | .errNoTest => .datum <$> raise .noTest [datumArg args 0]
  | .errToplevel => .datum <$> throwNamed "TOPLEVEL" none
  | .errSystem => .datum <$> throwNamed "SYSTEM" none
  | .throwTag => .datum <$> throwTag (datumArg args 0) (some (datumArg args 1))
  | .returnToken => do
    let value := datumArg args 1
    let value := if (← Run.heap).isData value then some value else none
    .datum <$> Run.making (newObject (.ret (datumArg args 0) value))
  | .gotoToken =>
    .datum <$> Run.making (newObject (.goto (datumArg args 0) (datumArg args 1)))
  | .continuationToken =>
    .datum <$> Run.making
      (newObject (.continuation (datumArg args 0) (datumArg args 1) (restArgs args 2)))
  | .runList => .datum <$> re.list pins (datumArg args 0)
  | .runProcedure => .datum <$> re.procedure pins (datumArg args 0) (restArgs args 1)
  | .pause => .datum <$> pauseForValue
  | .erract => return .truth (erractSet (← get))
  | .writeError => do
    writeError (datumArg args 0)
    return .void
  | .repcount => return .real (← get).repcount
  | .setRepcount => do
    modify fun w => { w with repcount := realArg args 0 }
    return .void
  | .beginCatch => .datum <$> beginCatch
  | .endCatch =>
    .datum <$> endCatch (datumArg args 0) (datumArg args 1) (datumArg args 2) (datumArg args 3)
  | .errorList => .datum <$> errorList
  | .setTest => do
    Run.modifyFrames fun fs => fs.modifyTop fun frame => { frame with test := truthArg args 0 }
    return .void
  | .isTested => return .truth (← get).frames.top.test.isSome
  | .testedState => return .truth ((← get).frames.top.test.getD false)
  | .runResult => do
    let result ← re.list pins (datumArg args 0)
    let object := (← Run.heap).get result
    if object.isFlow then return .datum result
    else if object.isData then .datum <$> Run.making (newList [result])
    else .datum <$> Run.making newEmpty
  | .continueToken => .datum <$> throwNamed "PAUSE" (some (datumArg args 0))
  | .getVar => do
    let w ← get
    return .datum ((w.frames.get? (w.heap.keyOf (datumArg args 0))).getD Ref.nothing)
  | .setVar => do
    let key := (← Run.heap).keyOf (datumArg args 1)
    Run.modifyFrames fun fs => fs.set key (datumArg args 2)
    return .datum (datumArg args 0)
  | .makeLocal => .datum <$> makeLocal (datumArg args 0) (restArgs args 1)
  | .data op => .datum <$> applyData op (datumArg args 0) (restArgs args 1)
  | .write mode => do
    writeValues mode (restArgs args 0)
    return .void
  | .math f => return .real (f.apply (realArg args 0) (realArg args 1))
  | .random =>
    let bound := Integer64.ofFloat (realArg args 0)
    .real <$> drawBetween 0 ((if bound < 1 then 1 else bound) - 1)
  | .randomRange =>
    let start := Integer64.ofFloat (realArg args 0)
    let stop := Integer64.ofFloat (realArg args 1)
    .real <$> drawBetween start (if stop < start then start else stop)
  | .rerandom => do
    modify fun w => { w with random := ⟨0⟩ }
    return .void
  | .rerandomSeed => do
    modify fun w => { w with random := ⟨(realArg args 0).toUInt64⟩ }
    return .void
  | .form => .datum <$> formText (realArg args 0) (realArg args 1) (realArg args 2)
  | .turtle op => do
    let outcome ← Run.withHost fun host => host.turtle op (args.map Value.asReal)
    .datum <$> turtleResult outcome
  | .setPos =>
    .datum <$> atPosition (datumArg args 0) (datumArg args 1) fun x y => do
      let outcome ← Run.withHost fun host => host.setPos x y
      turtleResult outcome
  | .pos => do
    let canvas := (← get).host.turtleState
    .datum <$> Run.making do
      let x ← newNumber canvas.x
      let y ← newNumber canvas.y
      newList [x, y]
  | .heading => return .real (← get).host.turtleState.heading
  | .towards =>
    .datum <$> atPosition (datumArg args 0) (datumArg args 1) fun x y => do
      let canvas := (← get).host.turtleState
      Run.making (newNumber (headingTo (x - canvas.x) (y - canvas.y)))
  | .penDownP => return .truth (← get).host.turtleState.penDown
  | .shownP => return .truth (← get).host.turtleState.shown

end LogoEngine
