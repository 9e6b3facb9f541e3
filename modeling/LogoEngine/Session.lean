import LogoEngine.Eval.TopLevel

/-!
# Sessions

A session is one evaluator together with the person at the keyboard: an inductive type of **steps**
to take, and an **answer** to each. A step is taken by `Session.take`, which also starts a new page
of the host's journal, so that after the step the journal tells what the step alone did.
-/

namespace LogoEngine

/-- The contents of a register, by a sketch of the object. -/
inductive Argument where
  | real (x : Float)
  | truth (b : Bool)
  | datum (value : Sketch)
  | void

/-- What can be done in a session. -/
inductive Step where
  /-- Runs a list at the top level. -/
  | execute (list : Sketch)
  /-- Runs a list and takes whatever it leaves, tokens included. -/
  | runList (list : Sketch)
  | runNode (node : Sketch)
  | runProcedure (call : Sketch) (args : List Sketch)
  /-- Defines a procedure; any other value is ignored. -/
  | define (procedure : Sketch)
  | procedure (name : String)
  | labels (name : String) (labels : List String)
  | assign (name : String) (value : Sketch)
  | read (name : String)
  /-- Queues an answer to a pause; none gives up. -/
  | reply (value : Option Sketch)
  /-- Teaches the host a parse, or makes it forget one. -/
  | learn (source : String) (parse : Option (List (List Sketch)))
  | seed (seed : UInt64)
  | keep (name : String) (value : Sketch)
  | forget (name : String)
  /-- Gives a list a new parse. -/
  | attach (list : Sketch) (parse : List (List Sketch))
  /-- Compiles what is kept under a name. -/
  | compile (name : String)
  | compileNode (node : Sketch)
  /-- Whether the code last made for a name is still in the cache. -/
  | isCached (name : String)
  /-- Runs the list that is kept under a name from a block of its code. -/
  | enter (name : String) (block : Int)
  | invalidate (source : Sketch)
  | invalidateProcedure (name : String)
  | callHelper (helper : Helper) (args : List Argument)

/-- What comes of a step. -/
inductive Answer where
  | done
  | truth (b : Bool)
  | outcome (result : Except Signal (Option Ref))
  | value (r : Option Ref)
  | register (v : Value)
  | procedure (p : Option Procedure)
  /-- Where each label leads. -/
  | labels (targets : List (Option LabelTarget))
  /-- The code that was made or found, by its number in order of appearance. -/
  | entry (number : Nat)
  | failure (e : CompileError)

/-- An evaluator and what was said about its code so far. -/
structure Session where
  world : World := {}
  /-- The entries that were answered, in order of appearance. -/
  seen : List Nat := []
  /-- The entry last answered for each name. -/
  answered : Table Nat := []

/-- Computations of a session. -/
abbrev Sitting := StateT Session (Except Halt)

namespace Session

/-- How deep, and how long on each level, code may run. -/
def fuel : Nat := 1000000000

/-- Does something with the evaluator. -/
def run {α : Type} (f : Run α) : Sitting α :=
  fun s => do
    let world := s.world
    let s := { s with world := {} }
    let (a, world) ← f world
    return (a, { s with world })

/-- Makes the value of a sketch. -/
def build (sketch : Sketch) : Run Ref := do
  let kept := (← get).host.kept
  Run.making (sketch.build kept)

/-- Makes the values of several sketches. -/
def buildAll (sketches : List Sketch) : Run (List Ref) := do
  let kept := (← get).host.kept
  Run.making (Sketch.buildAll kept sketches)

/-- Makes the contents of a register. -/
def buildArgument : Argument → Run Value
  | .real x => return .real x
  | .truth b => return .truth b
  | .datum value => return .datum (← build value)
  | .void => return .void

/-- The procedure of a name. -/
def procedure? (w : World) (name : String) : Option Procedure :=
  (w.procedures.get? (Text.upper name)).bind w.heap.procedure?

/-- What is kept under a name. -/
def kept (w : World) (name : String) : Ref :=
  (w.host.kept.get? name).getD Ref.nothing

/-- Whether the cache holds the code with a number. -/
def holds (s : Session) (entry : Nat) : Bool :=
  s.world.cache.entries.any fun e => e.code.number == entry

/-- Numbers an entry by its first appearance. -/
def number (entry : Nat) : Sitting Nat :=
  modifyGet fun s =>
    match s.seen.findIdx? (· == entry) with
    | some k => (k, s)
    | none => (s.seen.length, { s with seen := s.seen ++ [entry] })

/-- The answer to an attempt to compile something, perhaps under a name. -/
def answerEntry (name : Option String) (result : Except CompileError Entry) : Sitting Answer :=
  match result with
  | .error e => return .failure e
  | .ok entry => do
    match name with
    | some name => modify fun s => { s with answered := s.answered.insert name entry.number }
    | none => pure ()
    return .entry (← number entry.number)

/-- Compiles a node or a list. -/
def compileValue (r : Ref) : Compile Entry := do
  match (← Run.heap).get r with
  | .node _ _ => compileNode [.refs [r]] r
  | _ => compileList [.refs [r]] r

/-- Runs a list from a block of its code. -/
def enterBlock (r : Ref) (block : Int) : Run Answer := do
  match ← (compileList [.refs [r]] r).run with
  | .error e => return .failure e
  | .ok entry => return .value (some (← runCode (engine fuel) fuel [.refs [r]] entry.code block))

/-- Calls a helper from outside of compiled code. -/
def callHelperWith (helper : Helper) (args : List Argument) : Run Answer := do
  let values ← args.mapM buildArgument
  return .register (← callHelper (engine fuel) [.registers values.toArray] helper values)

/-- Gives a list a new parse. -/
def attachParse (list : Sketch) (parse : List (List Sketch)) : Run Unit := do
  let r ← build list
  let kept := (← get).host.kept
  Run.making do
    let groups ← Sketch.buildGroups kept parse
    modify fun h => h.attach r (groups.map fun group => group.map h.nodeOf)

/-- Changes the host. -/
def modifyHost (f : Host → Host) : Run Unit :=
  Run.withHost fun host => ((), f host)

/-- Takes a step. -/
def takeStep : Step → Sitting Answer
  | .execute list => run do
    let r ← build list
    return .outcome (← LogoEngine.execute fuel [.refs [r]] r)
  | .runList list => run do
    let r ← build list
    return .value (some (← (engine fuel).list [.refs [r]] r))
  | .runNode node => run do
    let r ← build node
    return .value (some (← LogoEngine.runNode fuel [.refs [r]] r))
  | .runProcedure call args => run do
    let call ← build call
    let args ← buildAll args
    return .value (some (← (engine fuel).procedure [.refs (call :: args)] call args))
  | .define procedure => run do
    defineProcedure (← build procedure)
    return .done
  | .procedure name => run do
    return .procedure (procedure? (← get) name)
  | .labels name labels => run do
    let p := procedure? (← get) name
    return .labels (labels.map fun label => p.bind fun p => p.labels.get? label)
  | .assign name value => run do
    let r ← build value
    Run.modifyFrames fun fs => fs.set (Text.upper name) r
    return .done
  | .read name => run do
    let w ← get
    return .value ((w.frames.get? (Text.upper name)).filter w.heap.isData)
  | .reply value => run do
    let r ← value.mapM build
    modifyHost fun host => { host with replies := host.replies ++ [r] }
    return .done
  | .learn source (some groups) => run do
    modifyHost fun host => { host with parses := host.parses.insert source groups }
    return .done
  | .learn source none => run do
    modifyHost fun host => { host with parses := host.parses.erase source }
    return .done
  | .seed seed => run do
    modify fun w => { w with random := ⟨seed⟩ }
    return .done
  | .keep name value => run do
    let r ← build value
    modifyHost fun host => { host with kept := host.kept.insert name r }
    return .done
  | .forget name => run do
    let known := (← get).host.kept.has name
    modifyHost fun host => { host with kept := host.kept.erase name }
    return .truth known
  | .attach list parse => run do
    attachParse list parse
    return .done
  | .compile name => do
    let result ← run do (compileValue (kept (← get) name)).run
    answerEntry (some name) result
  | .compileNode node => do
    let result ← run do
      let r ← build node
      (LogoEngine.compileNode [.refs [r]] r).run
    answerEntry none result
  | .isCached name => do
    let s ← get
    return .truth ((s.answered.get? name).any s.holds)
  | .enter name block => run do
    enterBlock (kept (← get) name) block
  | .invalidate source => run do
    LogoEngine.invalidate (← build source)
    return .done
  | .invalidateProcedure name => run do
    match (← get).procedures.get? (Text.upper name) with
    | some r => LogoEngine.invalidate r
    | none => pure ()
    return .done
  | .callHelper helper args => run (callHelperWith helper args)

/-- Starts a new page of the journal and takes a step. -/
def take (s : Session) (step : Step) : Except Halt (Answer × Session) :=
  let host := { s.world.host with journal := {} }
  (takeStep step).run { s with world := { s.world with host } }

end Session

end LogoEngine
