import LogoEngine.Arithmetic.Random
import LogoEngine.Eval.Cache
import LogoEngine.Eval.Frames
import LogoEngine.Eval.Host
import LogoEngine.Heap.Census
import LogoEngine.Heap.Render
import LogoEngine.Settings

/-!
# The state of an evaluator

Everything compiled code can reach: objects, frames, procedures, the code cache, the number of
repetitions, the current error and the host. Computations on it end with a result, or they
**halt**: because a number was to be formatted too wide, or because their fuel is used up.
-/

namespace LogoEngine

/-- Linked code with a number of its own. -/
structure Entry where
  number : Nat
  code : Linked

/-- The state of an evaluator. -/
structure World where
  heap : Heap := {}
  frames : Frames := {}
  procedures : Table Ref := []
  /-- The time of the last definition. -/
  lastDefinition : Nat := 0
  cache : Cache Entry := {}
  /-- How many routines were linked. -/
  linked : Nat := 0
  /-- The number of the pass of the innermost loop; -1 outside of loops. -/
  repcount : Float := -1.0
  currentError : Option Ref := none
  host : Host := {}
  random : Random := ⟨0⟩
  settings : Settings := {}

/-- Why a computation has no result. -/
inductive Halt where
  /-- A width or a number of places beyond what can be formatted. -/
  | formatTooWide
  | outOfFuel
deriving DecidableEq, Repr

/-- Computations of an evaluator. -/
abbrev Run := StateT World (Except Halt)

namespace Run

/-- The objects. -/
def heap : Run Heap := do
  return (← get).heap

/-- Makes or changes objects. The state lets go of the heap meanwhile, so that it can be changed
in place. -/
def making {α : Type} (f : Making α) : Run α :=
  fun w =>
    let h := w.heap
    let w := { w with heap := default }
    let (a, h) := f h
    .ok (a, { w with heap := h })

/-- Changes objects. -/
def modifyHeap (f : Heap → Heap) : Run Unit :=
  making fun h => ((), f h)

/-- Uses or changes the host. -/
def withHost {α : Type} (f : Host → α × Host) : Run α :=
  modifyGet fun w =>
    let (a, host) := f w.host
    (a, { w with host })

/-- Changes the frames. -/
def modifyFrames (f : Frames → Frames) : Run Unit :=
  modify fun w => { w with frames := f w.frames }

/-- Writes text. -/
def write (s : String) : Run Unit :=
  withHost fun host => ((), host.write s)

end Run

/-! ### What keeps objects alive -/

/-- The contents of a register. -/
inductive Value where
  | real (x : Float)
  | truth (b : Bool)
  | datum (r : Ref)
  /-- What a helper without result leaves. -/
  | void

namespace Value

/-- The number in a register; zero if there is none. -/
def asReal : Value → Float
  | real x => x
  | _ => 0.0

/-- The truth value in a register; false if there is none. -/
def asTruth : Value → Bool
  | truth b => b
  | _ => false

/-- The object in a register; "no value" if there is none. -/
def asDatum : Value → Ref
  | datum r => r
  | _ => Ref.nothing

end Value

/-- What a suspended computation holds on to. -/
inductive Pin where
  | registers (values : Array Value)
  | constants (held : Array Ref)
  | refs (held : List Ref)

/-- What all suspended computations hold on to, innermost first. -/
abbrev Pins := List Pin

/-- The references of a pin. -/
def Pin.references : Pin → List Ref
  | registers values => values.toList.map Value.asDatum
  | constants held => held.toList
  | refs held => held

/-- Every reference from outside the heap. -/
def World.roots (w : World) (pins : Pins) : List Ref :=
  Ref.nothing :: w.frames.references ++ w.procedures.map Prod.snd ++ w.currentError.toList ++
    w.host.references ++ w.cache.entries.flatMap (fun e => e.code.code.constants.toList) ++
    pins.flatMap Pin.references

/-- Which objects are alive. -/
def World.liveness (w : World) (pins : Pins) : Ref → Bool :=
  let census := Census.take w.heap (w.roots pins)
  fun r => census.isAlive r

end LogoEngine
