import LogoEngine.Emit.Ask
import LogoEngine.Emit.Flow
import LogoEngine.Emit.Number
import LogoEngine.Heap.Render
import LogoEngine.Vocabulary.Table

/-!
# Lowering nodes

A node is lowered in three steps: its inputs are lowered from left to right, then they are cast to
what the node asks for, again from left to right, then the node's own code follows. `AND` and `OR`
interleave the steps, since an input is only evaluated while the answer is open; the ways out of a
procedure turn a call of a user procedure into a tail call.
-/

namespace LogoEngine

/-- What each generator asks of its inputs, given how many there are. -/
def Generator.requests (generator : Generator) (inputs : Nat) : List Request :=
  let all (request : Request) := List.replicate inputs request
  match generator with
  | sum | product | difference | quotient | remainder | modulo | power | arctan | radArctan
  | bitAnd | bitOr | bitXor | ashift | lshift | random | rerandom | form
  | lessP | greaterP | lessEqualP | greaterEqualP | turtle _ => all .real
  | minus | sqrt | exp | log10 | ln | integerPart | round | sin | cos | radSin | radCos
  | bitNot => [.real]
  | negation => [.truth]
  | execProcedure | catching | throwing | resume | data _ | make | makeLocal
  | printing | showing | typing => all .datum
  | run | runResult | forever | ifTrue | ifFalse | goto | setPos | towards => [.datum]
  | repeatTimes => [.real, .datum]
  | ifTrueThen | ifElse => .datumOrTruth :: List.replicate (inputs - 1) .datum
  | test => [.datumOrTruth]
  | literal | valueOf | noOp | infixError | conjunction | disjunction | repcount | stop | output
  | maybeOutput | tag | lastError | pause | bye | pos | heading | penDownP | shownP => []

/-- What a node says it produces. -/
def Node.returns : Node → Request
  | call head _ => head.returns
  | datum _ => .datum

/-- The failure of a node that lacks an input. -/
def missingInput (h : Heap) (head : NodeHead) (index : Nat) : CompileError :=
  .unsupported (h.keyOf head.name) s!"missing input {index}"

/-- The code of a node, given the registers of its inputs. -/
def emitNode (h : Heap) (head : NodeHead) (rs : List Reg) : Lower Reg :=
  let who := head.name
  let node := head.ref
  match head.generator, rs with
  | .execProcedure, rs => Emit.procedureCall node rs
  | .noOp, _ | .tag, _ => Emit.const node
  | .sum, rs => Emit.fold (Emit.arith .add) 0.0 rs
  | .product, rs => Emit.fold (Emit.arith .mul) 1.0 rs
  | .difference, a :: b :: _ => Emit.arith .sub a b
  | .minus, a :: _ => Emit.negate a
  | .quotient, [a] => Emit.reciprocal who a
  | .quotient, a :: b :: _ => Emit.quotient who a b
  | .remainder, a :: b :: _ => Emit.remainder .remainder who a b
  | .modulo, a :: b :: _ => Emit.remainder .modulo who a b
  | .sqrt, a :: _ => Emit.squareRoot who a
  | .power, a :: b :: _ => Emit.power who a b
  | .exp, a :: _ => Emit.call (.math .exp) [a]
  | .log10, a :: _ => Emit.logarithm .log10 who a
  | .ln, a :: _ => Emit.logarithm .ln who a
  | .integerPart, a :: _ => Emit.call (.math .trunc) [a]
  | .round, a :: _ => Emit.call (.math .round) [a]
  | .sin, a :: _ => Emit.trigonometric .sin true a
  | .cos, a :: _ => Emit.trigonometric .cos true a
  | .radSin, a :: _ => Emit.trigonometric .sin false a
  | .radCos, a :: _ => Emit.trigonometric .cos false a
  | .arctan, [a] => Emit.arctangent true a
  | .arctan, a :: b :: _ => Emit.arctangentOf true a b
  | .radArctan, [a] => Emit.arctangent false a
  | .radArctan, a :: b :: _ => Emit.arctangentOf false a b
  | .bitAnd, rs => Emit.bitwise .bitAnd (-1.0) who rs
  | .bitOr, rs => Emit.bitwise .bitOr 0.0 who rs
  | .bitXor, rs => Emit.bitwise .bitXor 0.0 who rs
  | .bitNot, a :: _ => Emit.complement who a
  | .ashift, a :: b :: _ => Emit.shift .ashift who a b
  | .lshift, a :: b :: _ => Emit.shift .lshift who a b
  | .random, [a] => Emit.random who a
  | .random, a :: b :: _ => Emit.randomRange who a b
  | .rerandom, rs => Emit.rerandom who node rs
  | .form, a :: b :: c :: _ => Emit.form who a b c
  | .infixError, _ => Emit.infixFault who node
  | .lessP, a :: b :: _ => Emit.compare .lt a b
  | .greaterP, a :: b :: _ => Emit.compare .gt a b
  | .lessEqualP, a :: b :: _ => Emit.compare .le a b
  | .greaterEqualP, a :: b :: _ => Emit.compare .ge a b
  | .negation, a :: _ => Emit.not a
  | .run, a :: _ => Emit.run who a
  | .runResult, a :: _ => Emit.runResult who a
  | .repeatTimes, a :: b :: _ => Emit.repetition who node a b
  | .forever, a :: _ => Emit.forever who node a
  | .repcount, _ => Emit.call .repcount []
  | .ifTrueThen, a :: b :: rest | .ifElse, a :: b :: rest =>
    Emit.conditional who node a b rest.head?
  | .test, a :: _ => Emit.test who node a
  | .ifTrue, a :: _ => Emit.ifTested true who node a
  | .ifFalse, a :: _ => Emit.ifTested false who node a
  | .goto, a :: _ => Emit.goto node a
  | .catching, a :: b :: _ => Emit.catching who node a b
  | .throwing, a :: rest => Emit.throwing node a rest.head?
  | .lastError, _ => Emit.call .errorList []
  | .pause, _ => Emit.call .pause []
  | .resume, rs => Emit.resume node rs.head?
  | .bye, _ => Emit.leaveWith node .errSystem []
  | .data op, rs => Emit.askWithNode (.data op) node rs
  | .make, a :: b :: _ => Emit.assign who node a b
  | .makeLocal, rs => Emit.askWithNode .makeLocal node rs
  | .printing, rs => Emit.write .printing node rs
  | .showing, rs => Emit.write .showing node rs
  | .typing, rs => Emit.write .typing node rs
  | .turtle op, rs => Emit.ask (.turtle op) rs
  | .setPos, a :: _ => Emit.askWithNode .setPos node [a]
  | .pos, _ => Emit.call .pos []
  | .heading, _ => Emit.call .heading []
  | .towards, a :: _ => Emit.askWithNode .towards node [a]
  | .penDownP, _ => Emit.call .penDownP []
  | .shownP, _ => Emit.call .shownP []
  | _, rs => throw (missingInput h head (rs.length + 1))

/-- The helper that reports a number of inputs outside the bounds of a primitive. Literals,
variables and user procedures have no bounds here. -/
def arityFault? (h : Heap) (head : NodeHead) (inputs : Nat) : Option Helper :=
  match head.generator with
  | .literal | .valueOf | .execProcedure => none
  | _ =>
    match Primitive.find? (h.keyOf head.name) with
    | none => none
    | some row =>
      if inputs < row.minInputs then some .errNotEnoughInputs
      else if row.maxInputs.any (· < inputs) then some .errTooManyInputs
      else none

/-- The code of a node with a wrong number of inputs. -/
def emitArityFault (head : NodeHead) (helper : Helper) : Emit Reg := do
  let name ← Emit.const head.name
  let error ← Emit.call helper [name]
  Emit.returnNow error
  Emit.const head.ref

/-- The code of a literal: a native constant if the consumer asks for one and the word can be
read so, else the value itself. -/
def emitLiteral (h : Heap) (value : Ref) (request : Request) : Emit Reg :=
  match request, h.number? value with
  | .real, some x => Emit.real x
  | _, _ =>
    if request.contains .truth then
      match h.truth? value with
      | some b => Emit.truth b
      | none => Emit.const value
    else Emit.const value

/-- Casts the registers of inputs, from left to right. -/
def castInputs (who : Ref) : List Reg → List Node → List Request → Emit (List Reg)
  | r :: rs, node :: nodes, request :: requests => do
    let r ← Emit.cast r who node.returns request
    return r :: (← castInputs who rs nodes requests)
  | _, _, _ => return []

/-- The frame of `AND` (`conj`) or `OR`: the answer without inputs comes first, then the inputs'
code writes into the result and leaves for the exit when the answer is decided. -/
def emitChoice (conj noInputs : Bool) (inputs : Reg → Label → Lower Unit) : Lower Reg := do
  let result ← Emit.freshReg .truth
  let initial ← Emit.truth conj
  Emit.move result initial
  if noInputs then
    return result
  else
    let exit ← Emit.freshLabel
    inputs result exit
    Emit.endBlock (.jump exit) exit
    return result

mutual

/-- Lowers a node whose consumer asks for `request`; the consumer casts the result. -/
def lowerNode (h : Heap) : Node → Request → Lower Reg
  | .datum r, _ => throw (.unsupported (h.showForm r) "not an executable node")
  | .call head inputs, request =>
    match arityFault? h head inputs.length with
    | some helper => emitArityFault head helper
    | none =>
      match head.generator with
      | .literal =>
        match inputs with
        | value :: _ => emitLiteral h value.ref request
        | [] => throw (missingInput h head 1)
      | .valueOf =>
        match inputs with
        | name :: _ => Emit.variableValue name.ref
        | [] => throw (missingInput h head 1)
      | .conjunction =>
        emitChoice true inputs.isEmpty fun result exit =>
          lowerChoices h head true result exit inputs
      | .disjunction =>
        emitChoice false inputs.isEmpty fun result exit =>
          lowerChoices h head false result exit inputs
      | .stop => lowerExit h head .nothing inputs
      | .output => lowerExit h head .datum inputs
      | .maybeOutput => lowerExit h head .datumOrNothing inputs
      | generator => do
        let requests := generator.requests inputs.length
        let raw ← lowerInputs h inputs requests
        let rs ← castInputs head.name raw inputs requests
        emitNode h head rs

/-- Lowers inputs from left to right, as many as there are requests. -/
def lowerInputs (h : Heap) : List Node → List Request → Lower (List Reg)
  | node :: nodes, request :: requests => do
    let r ← lowerNode h node request
    return r :: (← lowerInputs h nodes requests)
  | _, _ => return []

/-- Lowers the inputs of `AND` or `OR` into `result`, with a branch after each but the last. -/
def lowerChoices (h : Heap) (head : NodeHead) (conj : Bool) (result : Reg) (exit : Label) :
    List Node → Lower Unit
  | [] => return ()
  | operand :: rest => do
    let raw ← lowerNode h operand .datumOrTruth
    let value ← Emit.cast raw head.name operand.returns .datumOrTruth
    let b ← Emit.condition head.name value
    Emit.move result b
    if rest.isEmpty then
      return ()
    else
      let next ← Emit.freshLabel
      Emit.endBlock (if conj then .branch b next exit else .branch b exit next) next
      lowerChoices h head conj result exit rest

/-- Lowers a way out of a procedure. -/
def lowerExit (h : Heap) (head : NodeHead) (request : Request) : List Node → Lower Reg
  | [] => do
    let self ← Emit.const head.ref
    let value ← Emit.nothing
    Emit.leaveWith head.ref .returnToken [self, value]
  | .datum r :: _ => do
    let _ ← Emit.const head.ref
    throw (.unsupported (h.showForm r) "not an executable node")
  | .call callee args :: _ => do
    let self ← Emit.const head.ref
    if callee.generator = .execProcedure then
      let requests := List.replicate args.length .datum
      let raw ← lowerInputs h args requests
      let rs ← castInputs callee.name raw args requests
      let target ← Emit.const callee.ref
      Emit.leaveWith head.ref .continuationToken (self :: target :: rs)
    else
      let raw ← lowerNode h (.call callee args) request
      let value ← Emit.cast raw head.name callee.returns request
      let value ← if request = .nothing then Emit.nothing else pure value
      Emit.leaveWith head.ref .returnToken [self, value]

end

end LogoEngine
