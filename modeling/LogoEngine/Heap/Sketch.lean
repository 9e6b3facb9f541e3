import LogoEngine.Heap.Basic
import LogoEngine.Vocabulary.Table

/-!
# Sketches

A sketch describes a value without being one: building it makes fresh objects each time. Parses
are handed over as sketches, since a parser makes new nodes whenever it is asked.
-/

namespace LogoEngine

/-- The description of a value or node. -/
inductive Sketch where
  | text (s : String)
  | number (x : Float)
  | truth (b : Bool)
  | nothing
  | list (items : List Sketch)
  | array (origin : Int) (items : List Sketch)
  /-- An instruction list with its parse; its elements are the names of the nodes. -/
  | code (groups : List (List Sketch))
  /-- An instruction list with its parse and elements of its own. -/
  | codeAs (groups : List (List Sketch)) (items : List Sketch)
  /-- An object that is kept under a name. -/
  | kept (name : String)
  | literal (value : Sketch)
  | valueOf (subject : String)
  /-- A call of the primitive of that name, or of a user procedure if there is none. -/
  | call (name : String) (inputs : List Sketch)
  /-- A call of a user procedure. -/
  | procedureCall (name : String) (inputs : List Sketch)
  | node (name : Sketch) (generator : Generator) (returns : Request) (inputs : List Sketch)
  | procedure (name : String) (required optional : List String) (rest : Option String)
      (defaultInputs : Option Nat) (body : Sketch) (defaults : List Sketch)
  | error (cause : ErrorCode) (tag : Sketch) (message : String)
  | errorWith (cause : ErrorCode) (tag : Sketch) (message : String) (value : Sketch)
  | stop (source : Sketch)
  | output (value source : Sketch)
  | goto (tag source : Sketch)
  | tail (target source : Sketch)

/-- Makes a call of a primitive, if there is one of that name. -/
def newPrimitiveCall? (name : String) (inputs : List Ref) : Making (Option Ref) :=
  match Primitive.find? name with
  | some row => do
    let node ← newNode (← newText name) row.generator row.returns inputs
    return some node
  | none => return none

/-- Makes an instruction list with a parse. -/
def newCode (groups : List (List Ref)) (items : List Ref) : Making Ref := do
  let r ← newList items
  modify fun h => h.attach r (groups.map fun group => group.map h.nodeOf)
  return r

/-- Makes a procedure. Its names become upper case. -/
def newProcedure (name : String) (required : List String) (optional : List (String × Ref))
    (rest : Option String) (defaultInputs : Option Nat) (body : Ref) : Making Ref :=
  newObject (.procedure
    { name := Text.upper name
      required := required.map Text.upper
      optional := optional.map fun (name, default) => (Text.upper name, default)
      rest := rest.map Text.upper
      defaultInputs := defaultInputs.getD required.length
      body
      labels := [] })

namespace Sketch

mutual

/-- Makes the value a sketch describes. -/
def build (kept : Table Ref) : Sketch → Making Ref
  | .text s => newText s
  | .number x => newNumber x
  | .truth b => newTruth b
  | .nothing => return Ref.nothing
  | .list items => do newList (← buildAll kept items)
  | .array origin items => do newArray origin (← buildAll kept items)
  | .code groups => do
    let groups ← buildGroups kept groups
    let h ← get
    newCode groups (groups.flatten.map h.displayName)
  | .codeAs groups items => do
    let groups ← buildGroups kept groups
    newCode groups (← buildAll kept items)
  | .kept name => return (kept.get? name).getD Ref.nothing
  | .literal value => do newLiteral (← value.build kept)
  | .valueOf subject => newValueOf subject
  | .call name inputs => do
    let inputs ← buildAll kept inputs
    match ← newPrimitiveCall? name inputs with
    | some made => return made
    | none => newProcedureCall name inputs
  | .procedureCall name inputs => do newProcedureCall name (← buildAll kept inputs)
  | .node name generator returns inputs => do
    let name ← name.build kept
    newNode name generator returns (← buildAll kept inputs)
  | .procedure name required optional rest defaultInputs body defaults => do
    let body ← body.build kept
    let defaults ← buildAll kept defaults
    newProcedure name required (optional.zip defaults) rest defaultInputs body
  | .error cause tag message => do
    let tag ← tag.build kept
    let message ← newText message
    newObject (.error ⟨cause, tag, message, none, none, none⟩)
  | .errorWith cause tag message value => do
    let tag ← tag.build kept
    let message ← newText message
    let value ← value.build kept
    newObject (.error ⟨cause, tag, message, some value, none, none⟩)
  | .stop source => do newObject (.ret (← source.build kept) none)
  | .output value source => do
    let value ← value.build kept
    newObject (.ret (← source.build kept) (some value))
  | .goto tag source => do
    let tag ← tag.build kept
    newObject (.goto (← source.build kept) tag)
  | .tail target source => do
    let target ← target.build kept
    newObject (.continuation (← source.build kept) target [])

/-- Makes the values of several sketches, in order. -/
def buildAll (kept : Table Ref) : List Sketch → Making (List Ref)
  | [] => return []
  | s :: rest => do
    let r ← s.build kept
    return r :: (← buildAll kept rest)

/-- Makes the nodes of a parse, in order. -/
def buildGroups (kept : Table Ref) : List (List Sketch) → Making (List (List Ref))
  | [] => return []
  | group :: rest => do
    let refs ← buildAll kept group
    return refs :: (← buildGroups kept rest)

end

end Sketch

end LogoEngine
