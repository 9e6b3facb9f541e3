import LogoEngine.Arithmetic.Routine
import LogoEngine.Vocabulary.Operation

/-!
# Helpers

Everything compiled code cannot do by itself it asks the evaluator for, through one of these
helpers. The **signature** of a helper says which registers it takes and what it leaves.
-/

namespace LogoEngine

/-- What a register holds: a double, a truth value, or a reference to an object. -/
inductive Ty where
  | real | truth | datum
deriving DecidableEq, Repr

/-- The name in messages. -/
def Ty.name : Ty → String
  | real => "F64"
  | truth => "Bool"
  | datum => "Datum"

/-- The three ways to write values. -/
inductive WriteMode where
  | printing | showing | typing
deriving DecidableEq, Repr

/-- The name in listings. -/
def WriteMode.name : WriteMode → String
  | printing => "Print"
  | showing => "Show"
  | typing => "Type"

/-- A request of compiled code to the evaluator. -/
inductive Helper where
  | wordFromReal | wordFromTruth | realOf | realValid | truthOf | truthValid
  /-- Whether the kind of a value is in a set of kinds. -/
  | hasTag (mask : Nat)
  | errDoesntLike | errDontSay | errDidntOutput | errNoValue | errNotEnoughInputs
  | errTooManyInputs | errNoTest | errToplevel | errSystem
  /-- A throw: tag and value. -/
  | throwTag
  /-- The end of a procedure: node and value. -/
  | returnToken
  | gotoToken
  /-- A tail call: node, call node and arguments. -/
  | continuationToken
  | runList
  /-- A procedure call: call node and arguments. -/
  | runProcedure
  | pause | erract | writeError | repcount | setRepcount | beginCatch
  /-- The end of a catch: the value `beginCatch` gave, tag, node and result. -/
  | endCatch
  | errorList | setTest | isTested | testedState | runResult | continueToken
  | getVar
  /-- An assignment: node, name and value. -/
  | setVar
  /-- New variables of the running procedure: node and names or lists of names. -/
  | makeLocal
  /-- An operation on data: node and inputs. -/
  | data (op : DataOp)
  | write (mode : WriteMode)
  | math (f : MathFn)
  | random | randomRange | rerandom | rerandomSeed | form
  | turtle (op : TurtleOp)
  /-- Node and position. -/
  | setPos
  | pos | heading
  /-- Node and position. -/
  | towards
  | penDownP | shownP
deriving DecidableEq, Repr

/-- Parameters and result of a helper. -/
structure Signature where
  params : List Ty
  /-- The type of further arguments, if any are allowed. -/
  rest : Option Ty
  ret : Option Ty
deriving DecidableEq, Repr

namespace Helper

/-- The helpers without a parameter. -/
def simple : List Helper :=
  [wordFromReal, wordFromTruth, realOf, realValid, truthOf, truthValid, errDoesntLike, errDontSay,
    errDidntOutput, errNoValue, errNotEnoughInputs, errTooManyInputs, errNoTest, errToplevel,
    errSystem, throwTag, returnToken, gotoToken, continuationToken, runList, runProcedure, pause,
    erract, writeError, repcount, setRepcount, beginCatch, endCatch, errorList, setTest, isTested,
    testedState, runResult, continueToken, getVar, setVar, makeLocal, random, randomRange,
    rerandom, rerandomSeed, form, setPos, pos, heading, towards, penDownP, shownP]

/-- Every helper but the tests on kinds. -/
def all : List Helper :=
  simple ++ DataOp.all.map data ++ [write .printing, write .showing, write .typing] ++
    MathFn.all.map math ++ TurtleOp.all.map turtle

/-- The name in listings. -/
def name : Helper → String
  | wordFromReal => "WordFromF64"
  | wordFromTruth => "WordFromBool"
  | realOf => "DoubleOf"
  | realValid => "DoubleValid"
  | truthOf => "BoolOf"
  | truthValid => "BoolValid"
  | hasTag mask => "HasTag(" ++ toString mask ++ ")"
  | errDoesntLike => "ErrDoesntLike"
  | errDontSay => "ErrDontSay"
  | errDidntOutput => "ErrDidntOutput"
  | errNoValue => "ErrNoValue"
  | errNotEnoughInputs => "ErrNotEnoughInputs"
  | errTooManyInputs => "ErrTooManyInputs"
  | errNoTest => "ErrNoTest"
  | errToplevel => "ErrToplevel"
  | errSystem => "ErrSystem"
  | throwTag => "Throw"
  | returnToken => "ReturnToken"
  | gotoToken => "GotoToken"
  | continuationToken => "ContinuationToken"
  | runList => "RunList"
  | runProcedure => "RunProcedure"
  | pause => "Pause"
  | erract => "Erract"
  | writeError => "WriteError"
  | repcount => "Repcount"
  | setRepcount => "SetRepcount"
  | beginCatch => "BeginCatch"
  | endCatch => "EndCatch"
  | errorList => "ErrorList"
  | setTest => "SetTest"
  | isTested => "IsTested"
  | testedState => "TestedState"
  | runResult => "RunResult"
  | continueToken => "ContinueToken"
  | getVar => "GetVar"
  | setVar => "SetVar"
  | makeLocal => "MakeLocal"
  | data op => "Data(" ++ op.name ++ ")"
  | write mode => "Write(" ++ mode.name ++ ")"
  | math f => "Math(" ++ f.name ++ ")"
  | random => "Random"
  | randomRange => "RandomRange"
  | rerandom => "Rerandom"
  | rerandomSeed => "RerandomSeed"
  | form => "Form"
  | turtle op => "Turtle(" ++ op.name ++ ")"
  | setPos => "SetPos"
  | pos => "Pos"
  | heading => "Heading"
  | towards => "Towards"
  | penDownP => "PenDownP"
  | shownP => "ShownP"

/-- What a helper takes and leaves. -/
def signature : Helper → Signature
  | wordFromReal => ⟨[.real], none, some .datum⟩
  | wordFromTruth => ⟨[.truth], none, some .datum⟩
  | realOf => ⟨[.datum], none, some .real⟩
  | realValid | truthOf | truthValid | hasTag _ => ⟨[.datum], none, some .truth⟩
  | errDoesntLike | errDidntOutput | throwTag => ⟨[.datum, .datum], none, some .datum⟩
  | errDontSay | errNoValue | errNotEnoughInputs | errTooManyInputs | errNoTest =>
    ⟨[.datum], none, some .datum⟩
  | errToplevel | errSystem => ⟨[], none, some .datum⟩
  | returnToken | gotoToken => ⟨[.datum, .datum], none, some .datum⟩
  | continuationToken => ⟨[.datum, .datum], some .datum, some .datum⟩
  | runList | runResult | continueToken => ⟨[.datum], none, some .datum⟩
  | runProcedure | makeLocal | data _ => ⟨[.datum], some .datum, some .datum⟩
  | pause | beginCatch | errorList => ⟨[], none, some .datum⟩
  | erract | isTested | testedState => ⟨[], none, some .truth⟩
  | writeError => ⟨[.datum], none, none⟩
  | repcount => ⟨[], none, some .real⟩
  | setRepcount => ⟨[.real], none, none⟩
  | endCatch => ⟨[.datum, .datum, .datum, .datum], none, some .datum⟩
  | setTest => ⟨[.truth], none, none⟩
  | getVar => ⟨[.datum], none, some .datum⟩
  | setVar => ⟨[.datum, .datum, .datum], none, some .datum⟩
  | write _ => ⟨[], some .datum, none⟩
  | math f => ⟨if f.isBinary then [.real, .real] else [.real], none, some .real⟩
  | random => ⟨[.real], none, some .real⟩
  | randomRange => ⟨[.real, .real], none, some .real⟩
  | rerandom => ⟨[], none, none⟩
  | rerandomSeed => ⟨[.real], none, none⟩
  | form => ⟨[.real, .real, .real], none, some .datum⟩
  | turtle op => ⟨List.replicate op.inputs .real, none, some .datum⟩
  | setPos | towards => ⟨[.datum, .datum], none, some .datum⟩
  | pos => ⟨[], none, some .datum⟩
  | heading => ⟨[], none, some .real⟩
  | penDownP | shownP => ⟨[], none, some .truth⟩

end Helper

/-- The type of the argument at a position. -/
def Signature.paramAt (s : Signature) (index : Nat) : Option Ty :=
  match s.params[index]? with
  | some ty => some ty
  | none => s.rest

/-- Whether a number of arguments is allowed. -/
def Signature.allows (s : Signature) (count : Nat) : Bool :=
  s.params.length ≤ count && (s.rest.isSome || count == s.params.length)

end LogoEngine
