import LogoEngine.Eval.World
import LogoEngine.Lower.Unit
import LogoEngine.Proofs.Lower.Built

/-!
# What expressions mean

An **expression** is a literal, a variable, or an operator of arithmetic, comparison or negation
with as many inputs as its row of the table allows. `Node.evaluate` says what an expression means
without any code: its inputs are evaluated from left to right up to the first error, then they are
read as numbers or truth values from left to right, then the operator checks what it is given and
computes.

The value of an expression is a native number, a native truth value, or an object.
-/

namespace LogoEngine

/-- An error, by its code and its message. -/
structure Fault where
  code : ErrorCode
  message : String
deriving DecidableEq, Repr

/-- How messages show a value. -/
def Value.shown (h : Heap) : Value → String
  | real x => (Word.number x).toText
  | truth b => (Word.truth b).toText
  | datum r => h.showForm (h.displayName r)
  | void => ""

namespace Fault

/-- `who` does not like `v` as input. -/
def doesntLike (h : Heap) (who : Ref) (v : Value) : Fault :=
  ⟨.doesntLike, ErrorCode.doesntLike.format [(Value.datum who).shown h, v.shown h]⟩

/-- A variable has no value. -/
def noValue (h : Heap) (name : Ref) : Fault :=
  ⟨.noValue, ErrorCode.noValue.format [(Value.datum name).shown h]⟩

end Fault

/-! ### Reading values -/

section

variable (h : Heap) (who : Ref)

/-- A value as a number, for `who`. A truth value is no number. -/
def Value.readReal (v : Value) : Except Fault Float :=
  match v with
  | real x => .ok x
  | datum r =>
    match h.number? r with
    | some x => .ok x
    | none => .error (.doesntLike h who v)
  | _ => .error (.doesntLike h who v)

/-- A value as a truth value, for `who`. A number is no truth value. -/
def Value.readTruth (v : Value) : Except Fault Bool :=
  match v with
  | truth b => .ok b
  | datum r =>
    match h.truth? r with
    | some b => .ok b
    | none => .error (.doesntLike h who v)
  | _ => .error (.doesntLike h who v)

/-- A number that `who` demands something of. -/
def demand (holds : Float → Bool) (x : Float) : Except Fault Float :=
  if holds x then .ok x else .error (.doesntLike h who (.real x))

/-- Whether a number is below or above zero. What is not a number is neither. -/
def isNonzero (x : Float) : Bool :=
  x < 0.0 || x > 0.0

/-- Numbers combined from left to right. -/
def foldReal (op : Float → Float → Float) (identity : Float) : List Float → Float
  | [] => identity
  | x :: xs => xs.foldl op x

namespace Generator

/-- What an operator on numbers makes of its inputs. Checks come in input order. -/
def calculate : Generator → List Float → Except Fault Value
  | sum, xs => .ok (.real (foldReal (· + ·) 0.0 xs))
  | product, xs => .ok (.real (foldReal (· * ·) 1.0 xs))
  | difference, [a, b] => .ok (.real (a - b))
  | minus, [a] => .ok (.real (-a))
  | quotient, [a] => do
    let a ← demand h who isNonzero a
    .ok (.real (1.0 / a))
  | quotient, [a, b] => do
    let b ← demand h who isNonzero b
    .ok (.real (a / b))
  | remainder, [a, b] => do
    let a ← demand h who isInt32 a
    let b ← demand h who (fun b => isNonzero b && isInt32 b) b
    .ok (.real (Integer32.toFloat (Integer32.remainder (Integer32.ofFloat a) (Integer32.ofFloat b))))
  | modulo, [a, b] => do
    let a ← demand h who isInt32 a
    let b ← demand h who (fun b => isNonzero b && isInt32 b) b
    .ok (.real (Integer32.toFloat (Integer32.modulo (Integer32.ofFloat a) (Integer32.ofFloat b))))
  | lessP, [a, b] => .ok (.truth (a < b))
  | greaterP, [a, b] => .ok (.truth (a > b))
  | lessEqualP, [a, b] => .ok (.truth (a ≤ b))
  | greaterEqualP, [a, b] => .ok (.truth (a ≥ b))
  | _, _ => .ok .void

/-- What `NOT` makes of its input. -/
def negate : List Bool → Except Fault Value
  | [b] => .ok (.truth !b)
  | _ => .ok .void

/-- The operators of expressions. -/
def isOperator : Generator → Bool
  | sum | product | difference | minus | quotient | remainder | modulo | lessP | greaterP
  | lessEqualP | greaterEqualP | negation => true
  | _ => false

end Generator

end

/-! ### The evaluator -/

/-- The value of a variable, which must be data. -/
def World.valueOf (w : World) (name : Ref) : Except Fault Value :=
  let r := (w.frames.get? (w.heap.keyOf name)).getD Ref.nothing
  if w.heap.isData r then .ok (.datum r) else .error (.noValue w.heap name)

mutual

/-- What an expression means in a state. -/
def Node.evaluate (w : World) : Node → Except Fault Value
  | .datum r => .ok (.datum r)
  | .call head inputs =>
    match head.generator, inputs with
    | .literal, value :: _ => .ok (.datum value.ref)
    | .valueOf, name :: _ => w.valueOf name.ref
    | .negation, inputs => do
      let values ← evaluateAll w inputs
      let truths ← values.mapM (Value.readTruth w.heap head.name)
      Generator.negate truths
    | generator, inputs => do
      let values ← evaluateAll w inputs
      let numbers ← values.mapM (Value.readReal w.heap head.name)
      generator.calculate w.heap head.name numbers

/-- What expressions mean, from left to right, up to the first error. -/
def Node.evaluateAll (w : World) : List Node → Except Fault (List Value)
  | [] => .ok []
  | node :: rest => do
    let v ← node.evaluate w
    let vs ← evaluateAll w rest
    .ok (v :: vs)

end

/-! ### Answers -/

/-- An object that is a value: the word of a native one, or the object itself. -/
def Heap.Denotes (h : Heap) (r : Ref) : Value → Prop
  | .real x => h.get r = .word (.number x)
  | .truth b => h.get r = .word (.truth b)
  | .datum o => r = o
  | .void => False

/-- An object that records a fault. -/
def World.Reports (w : World) (r : Ref) (fault : Fault) : Prop :=
  ∃ e, w.heap.get r = .error e ∧ e.code = fault.code ∧
    w.heap.get e.message = .word (.text fault.message)

/-- An object that says what an expression means. -/
def World.Answers (w : World) (r : Ref) : Except Fault Value → Prop
  | .ok v => w.heap.Denotes r v
  | .error fault => w.Reports r fault

/-! ### Expressions -/

/-- Literals, variables, and operators with a number of inputs in bounds. -/
inductive Node.Expression (h : Heap) : Node → Prop
  | literal {head : NodeHead} (value : Node) (hgenerator : head.generator = .literal)
      (hreturns : head.returns = .datum) : Expression h (.call head [value])
  | valueOf {head : NodeHead} (subject : Ref) (hgenerator : head.generator = .valueOf)
      (hreturns : head.returns = .datum) : Expression h (.call head [.datum subject])
  | operation {head : NodeHead} {inputs : List Node} (name : String) (row : Primitive)
      (hname : h.word? head.name = some (.text name)) (hrow : Primitive.find? name = some row)
      (hgenerator : head.generator = row.generator) (hreturns : head.returns = row.returns)
      (hoperator : row.generator.isOperator = true) (hmin : row.minInputs ≤ inputs.length)
      (hmax : ∀ bound, row.maxInputs = some bound → inputs.length ≤ bound)
      (hinputs : ∀ input ∈ inputs, input.Expression h) : Expression h (.call head inputs)

/-- Expressions are built. -/
theorem Node.Expression.built {h : Heap} {node : Node} (hnode : node.Expression h) :
    node.Built h := by
  induction hnode with
  | literal value hgenerator hreturns => exact .literal value hgenerator hreturns
  | valueOf subject hgenerator hreturns => exact .valueOf subject hgenerator hreturns
  | operation name row hname hrow hgenerator hreturns _ _ _ _ ih =>
    exact .primitive name row hname hrow hgenerator hreturns ih

/-- How many inputs an operator takes: the fewest, and the most if there is a bound. -/
def Generator.inputBounds : Generator → Nat × Option Nat
  | sum | product => (0, none)
  | minus | negation => (1, some 1)
  | quotient => (1, some 2)
  | _ => (2, some 2)

/-- The table gives every operator its bounds, and says what it produces. -/
theorem Primitive.operator_of_mem : ∀ row ∈ Primitive.table, row.generator.isOperator = true →
    (row.minInputs, row.maxInputs) = row.generator.inputBounds ∧
      (row.generator.ty = .real ∧ row.returns = .real ∨
        row.generator.ty = .truth ∧ row.returns = .truth) := by
  decide +kernel

namespace Generator

variable {g : Generator}

/-- What operators ask of their inputs. -/
def operand (g : Generator) : Request :=
  if g = .negation then .truth else .real

/-- An operator asks the same of all its inputs. -/
theorem requests_eq_replicate {n : Nat} (hoperator : g.isOperator = true)
    (hmin : g.inputBounds.1 ≤ n) (hmax : ∀ bound, g.inputBounds.2 = some bound → n ≤ bound) :
    g.requests n = List.replicate n g.operand := by
  cases g with
  | minus | negation =>
    obtain rfl : n = 1 := Nat.le_antisymm (hmax 1 rfl) hmin
    rfl
  | sum | product | difference | quotient | remainder | modulo | lessP | greaterP | lessEqualP
  | greaterEqualP => rfl
  | _ => cases hoperator

end Generator

/-! ### The evaluator on operators -/

section

variable {w : World} {head : NodeHead} {inputs : List Node}

/-- An operator on numbers. -/
theorem Node.evaluate_calculate (hoperator : head.generator.isOperator = true)
    (hnegation : head.generator ≠ .negation) :
    (Node.call head inputs).evaluate w = (do
      let values ← evaluateAll w inputs
      let numbers ← values.mapM (Value.readReal w.heap head.name)
      head.generator.calculate w.heap head.name numbers) := by
  rw [evaluate.eq_def]
  dsimp only
  split
  · next hgenerator =>
    rw [hgenerator] at hoperator
    cases hoperator
  · next hgenerator =>
    rw [hgenerator] at hoperator
    cases hoperator
  · next hgenerator => exact absurd hgenerator hnegation
  · rfl

/-- Negation. -/
theorem Node.evaluate_negate (hgenerator : head.generator = .negation) :
    (Node.call head inputs).evaluate w = (do
      let values ← evaluateAll w inputs
      let truths ← values.mapM (Value.readTruth w.heap head.name)
      Generator.negate truths) := by
  rw [evaluate.eq_def]
  dsimp only
  rw [hgenerator]

end

end LogoEngine
