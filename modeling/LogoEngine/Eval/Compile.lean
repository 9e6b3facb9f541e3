import LogoEngine.Code.Check
import LogoEngine.Eval.Raise
import LogoEngine.Lower.Unit

/-!
# From sources to linked code

A list is parsed when it has no parse or its parse is older than the last definition, and lowered
and linked when the cache has no code for its parse. Words are parsed whenever they run.
-/

namespace LogoEngine

/-- Computations that may fail to compile. -/
abbrev Compile := ExceptT CompileError Run

/-- Checks a routine, if the settings say so, and links it. -/
def linkRoutine (code : Routine) : Compile Entry := do
  let settings := (← get).settings
  if settings.verify then
    ExceptT.mk (pure code.verify)
  let linked ← ExceptT.mk (pure (code.link settings.backend))
  let number := (← get).linked
  modify fun w => { w with linked := w.linked + 1 }
  return ⟨number, linked⟩

/-- Lowers a parse and links it. The labels that are met are recorded in the procedure, also if
lowering fails. -/
def lowerAndLink (name : String) (parse : Parse) (procedure : Option Ref) (source : Option Ref) :
    Compile Entry := do
  let (result, labels) := lowerUnit (← Run.heap) name source parse
  match procedure with
  | some p => Run.modifyHeap fun h => h.recordLabels p labels
  | none => pure ()
  let code ← ExceptT.mk (pure result)
  linkRoutine code

/-- Asks the host for a parse and makes its nodes. -/
def parseSource (source : Ref) : Run (Option Parse) := do
  let shown := (← Run.heap).showForm source
  match ← Run.withHost fun host => host.parse shown with
  | none => return none
  | some groups => do
    let kept := (← get).host.kept
    let parse ← Run.making do
      let groups ← Sketch.buildGroups kept groups
      let h ← get
      return groups.map fun group => group.map h.nodeOf
    return some parse

/-- Looks code up in the cache. The source is alive, since it is about to run. -/
def lookupCode (id stamp : Nat) : Run (Option Entry) :=
  modifyGet fun w =>
    let (found, cache) := w.cache.lookup (fun _ => true) id stamp
    (found, { w with cache })

/-- Enters code into the cache. What the code and its source hold stays alive during a sweep. -/
def enterCode (pins : Pins) (id : Nat) (source : Ref) (stamp : Nat) (entry : Entry) :
    Run Unit :=
  modify fun w =>
    let alive :=
      if w.cache.isDue then
        w.liveness (.refs [source] :: .constants entry.code.constants :: pins)
      else fun _ => true
    { w with cache := w.cache.insert alive ⟨id, source, stamp, entry⟩ }

/-- Parses a list if it has no parse, or one that is older than the last definition. A parse that
the host no longer knows stays and is dated anew. -/
def refreshParse (source : Ref) (cell : Cell) : Compile Unit := do
  if cell.parse.isNone || cell.stamp ≤ (← get).lastDefinition then
    match ← parseSource source with
    | some parse => Run.modifyHeap fun h => h.attach source parse
    | none =>
      if cell.parse.isSome then Run.modifyHeap fun h => h.restamp source
      else throw (.unparsed ((← Run.heap).showForm source))

/-- The code of a list or word, possibly the body of a procedure. -/
def compileSource (pins : Pins) (source : Ref) (procedure : Option Ref) : Compile Entry := do
  let h ← Run.heap
  match h.cell? source with
  | none =>
    match ← parseSource source with
    | some parse => lowerAndLink (h.printForm source) parse procedure (some source)
    | none => throw (.unparsed (h.showForm source))
  | some cell => do
    refreshParse source cell
    let h ← Run.heap
    match h.cell? source with
    | none => throw (.unparsed (h.showForm source))
    | some cell =>
      match ← lookupCode cell.id cell.stamp with
      | some entry => return entry
      | none =>
        let name :=
          match procedure.bind h.procedure? with
          | some p => p.name
          | none => s!"list#{cell.id}"
        let entry ← lowerAndLink name (cell.parse.getD []) procedure (some source)
        enterCode pins cell.id source cell.stamp entry
        return entry

/-- The code of a list or word. -/
def compileList (pins : Pins) (source : Ref) : Compile Entry :=
  compileSource pins source none

/-- The code of a single node, which is compiled once. -/
def compileNode (pins : Pins) (node : Ref) : Compile Entry := do
  let h ← Run.heap
  match h.get node with
  | .node head inputs =>
    match ← lookupCode head.id 0 with
    | some entry => return entry
    | none =>
      let name := h.keyOf head.name ++ s!"#{head.id}"
      let entry ← lowerAndLink name [[.call head inputs]] none none
      enterCode pins head.id node 0 entry
      return entry
  | _ => throw (.unsupported (h.showForm node) "not an executable node")

/-- Drops the code of a list, a node, or the body of a procedure. -/
def invalidate (source : Ref) : Run Unit :=
  modify fun w =>
    let id? :=
      match w.heap.get source with
      | .procedure p => (w.heap.cell? p.body).map Cell.id
      | _ => w.heap.sourceId? source
    match id? with
    | some id => { w with cache := w.cache.erase id }
    | none => w

/-- Defines a procedure, or does nothing for any other value. Every list parsed before is parsed
and compiled anew when it next runs. -/
def defineProcedure (r : Ref) : Run Unit := do
  match (← Run.heap).procedure? r with
  | none => return ()
  | some p =>
    let old := (← get).procedures.get? p.name
    modify fun w => { w with procedures := w.procedures.insert p.name r }
    match old with
    | some old => invalidate old
    | none => pure ()
    let now ← Run.making tick
    modify fun w => { w with lastDefinition := now }

end LogoEngine
