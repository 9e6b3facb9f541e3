import LogoEngine.Eval.Compile
import LogoEngine.Eval.Machine

/-!
# Running lists and procedures

Here tokens are consumed: a procedure call makes its result of `OUTPUT` and `STOP`, enters its
body again for `GOTO`, and loops on tail calls. All else passes tokens on.

`engine n` runs code with at most `n` levels of nesting, and at most as many blocks, jumps and
tail calls at each level.
-/

namespace LogoEngine

/-- Runs an instruction list in the current frame. -/
def runListWith (re : Reenter) (fuel : Nat) (pins : Pins) (list : Ref) : Run Ref := do
  match ← (compileList (.refs [list] :: pins) list).run with
  | .error failure => raiseCompileFailure list failure
  | .ok entry =>
    let saved := (← get).frames.top.line
    Run.modifyFrames fun fs => fs.modifyTop fun frame => { frame with line := some list }
    let result ← runCode re fuel (.refs (list :: saved.toList) :: pins) entry.code 0
    Run.modifyFrames fun fs => fs.modifyTop fun frame => { frame with line := saved }
    return result

/-! ### One activation -/

/-- Binds the required inputs; the arguments that are left. -/
def bindRequired : List String → List Ref → Run (List Ref)
  | [], args => return args
  | name :: names, args => do
    Run.modifyFrames fun fs => fs.bind name (args.head?.getD Ref.nothing)
    bindRequired names args.tail

/-- Binds the optional inputs; a missing one gets the value of its default list, which is run in
the new frame. The arguments that are left, or the token or error that ends the call. -/
def bindOptional (re : Reenter) (pins : Pins) (call : Ref) :
    List (String × Ref) → List Ref → Run (Except Ref (List Ref))
  | [], args => return .ok args
  | (name, _) :: params, arg :: args => do
    Run.modifyFrames fun fs => fs.bind name arg
    bindOptional re pins call params args
  | (name, default) :: params, [] => do
    let value ← re.list pins default
    let object := (← Run.heap).get value
    if object.isFlow then
      return .error value
    else if object.isData then
      Run.modifyFrames fun fs => fs.bind name value
      bindOptional re pins call params []
    else
      return .error (← raiseDidntOutput default call)

/-- Binds the rest input to the list of all arguments that are left. -/
def bindRest (rest : Option String) (args : List Ref) : Run Unit :=
  match rest with
  | none => return ()
  | some name => do
    let list ← Run.making (newList args)
    Run.modifyFrames fun fs => fs.bind name list

/-- Runs the code of a body, and again from another block for each jump to a label. -/
def runJumps (re : Reenter) (loop : Nat) (pins : Pins) (procedure : Ref) (code : Linked) :
    Nat → Int → Run Ref
  | 0, _ => throw .outOfFuel
  | fuel + 1, block => do
    let result ← runCode re loop pins code block
    let h ← Run.heap
    match h.get result with
    | .goto source tag =>
      match (h.procedure? procedure).bind fun p => p.labels.get? (h.keyOf tag) with
      | some target => runJumps re loop pins procedure code fuel target.block
      | none => raiseDoesntLike source tag
    | _ => return result

/-- Binds the inputs and runs the body, in a frame that exists already. -/
def runBody (re : Reenter) (fuel : Nat) (pins : Pins) (procedure call : Ref) (p : Procedure)
    (args : List Ref) : Run Ref := do
  let args ← bindRequired p.required args
  match ← bindOptional re (.refs args :: pins) call p.optional args with
  | .error result => return result
  | .ok args =>
    bindRest p.rest args
    match ← (compileSource pins p.body (some procedure)).run with
    | .error failure => raiseCompileFailure p.body failure
    | .ok entry =>
      Run.modifyFrames fun fs => fs.modifyTop fun frame => { frame with line := some p.body }
      runJumps re fuel pins procedure entry.code fuel 0

/-- One activation of a procedure: the number of inputs is checked, and the body runs in a new
frame. -/
def invoke (re : Reenter) (fuel : Nat) (pins : Pins) (procedure call : Ref) (args : List Ref) :
    Run Ref := do
  match (← Run.heap).procedure? procedure with
  | none => raise .noHow [call]
  | some p =>
    if args.length < p.minInputs then raise .notEnoughInputs [call]
    else if p.maxInputs.any (· < args.length) then raise .tooManyInputs [call]
    else
      Run.modifyFrames fun fs => fs.push procedure call
      let result ← runBody re fuel pins procedure call p args
      Run.modifyFrames Frames.pop
      return result

/-! ### Calls -/

/-- What the result of a call must satisfy, by the way out that made the last tail call. -/
inductive Demand where
  | none | stop | output | maybeOutput
deriving DecidableEq, Repr

/-- The demand of a way out. -/
def Demand.ofSource (h : Heap) (source : Ref) : Demand :=
  match h.get source with
  | .node head _ =>
    match head.generator with
    | .stop => .stop
    | .output => .output
    | .maybeOutput => .maybeOutput
    | _ => .none
  | _ => .none

/-- A call that may be replaced by tail calls: `node` made the first call, `call` is the present
one, and `source` the way out that led to it. -/
structure Activation where
  node : Ref
  call : Ref
  args : List Ref
  demand : Demand := .none
  source : Option Ref := none

/-- Turns the value of the last activation into the result of the call. -/
def Activation.finish (a : Activation) (value : Option Ref) : Run Ref :=
  match a.demand, value with
  | .stop, some value => raiseDontSay value
  | .output, none => raiseDidntOutput a.call (a.source.getD a.node)
  | _, some value => return value
  | _, none => return a.node

/-- Runs a call, and the tail calls it leads to. -/
def runCalls (re : Reenter) (loop : Nat) (pins : Pins) : Nat → Activation → Run Ref
  | 0, _ => throw .outOfFuel
  | fuel + 1, a => do
    let w ← get
    match w.procedures.get? (w.heap.keyOf (w.heap.displayName a.call)) with
    | none => raise .noHow [a.call]
    | some procedure =>
      if w.settings.maxDepth ≤ w.frames.depth then
        raise .stackOverflow []
      else
        let pins' := .refs (a.node :: a.call :: procedure :: a.source.toList) :: pins
        let result ← invoke re loop pins' procedure a.call a.args
        let h ← Run.heap
        match h.get result with
        | .continuation source call args =>
          runCalls re loop pins fuel
            { a with call, args, demand := .ofSource h source, source := some source }
        | .ret _ value => a.finish value
        | .error _ => return result
        | object => if object.isData then raiseDontSay result else a.finish none

/-- Calls the procedure a node names. -/
def runProcedureWith (re : Reenter) (fuel : Nat) (pins : Pins) (node : Ref) (args : List Ref) :
    Run Ref :=
  runCalls re fuel pins fuel { node, call := node, args }

/-- Runs lists and procedures with the given fuel. -/
def engine : Nat → Reenter
  | 0 =>
    { list := fun _ _ => throw .outOfFuel
      procedure := fun _ _ _ => throw .outOfFuel }
  | fuel + 1 =>
    { list := fun pins list => runListWith (engine fuel) fuel pins list
      procedure := fun pins node args => runProcedureWith (engine fuel) fuel pins node args }

end LogoEngine
