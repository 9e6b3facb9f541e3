import LogoEngine.Proofs.Eval.TailCalls

/-!
# The moments of a run

What is going on in a run at any one time: a list is about to run, code is between two of its
instructions, a call is about to be made, the inputs of a call are to be bound, or its body is to be
run from a block on. `Moment.Next` says which moment can follow which: by going on at the same level,
or by going into the list or call that an instruction runs. Nothing is said about fuel, so that the
moments of runs that never end are covered too.
-/

namespace LogoEngine

/-- A moment of a run. -/
inductive Moment where
  /-- A list is about to run in the innermost frame. -/
  | list (pins : Pins) (list : Ref) (w : World)
  /-- Code is running for the block of the given number. -/
  | code (pins : Pins) (code : Linked) (block : Int) (c : Config)
  /-- A call is about to be made; its frame is not there yet. -/
  | call (pins : Pins) (a : Activation) (w : World)
  /-- The frame of a call is there, and nothing is bound in it. -/
  | inputs (pins : Pins) (procedure call : Ref) (p : Procedure) (args : List Ref) (w : World)
  /-- The inputs are bound, and the body runs from the block of the given number on. -/
  | body (pins : Pins) (procedure : Ref) (code : Linked) (block : Int) (w : World)

namespace Moment

/-- The evaluator at a moment. -/
def world : Moment → World
  | list _ _ w | call _ _ w | inputs _ _ _ _ _ w | body _ _ _ _ w => w
  | code _ _ _ c => c.world

/-- What follows a moment with the same frames. -/
inductive Stays : Moment → Moment → Prop
  /-- The code of a list starts, and the list becomes the running line. -/
  | listStarts {pins : Pins} {list : Ref} {entry : Entry} {w w₁ : World}
      (hcompile : (compileList (.refs [list] :: pins) list).run w = .ok (.ok entry, w₁)) :
      Stays (.list pins list w)
        (.code (.constants entry.code.constants ::
            .refs (list :: w₁.frames.top.line.toList) :: pins) entry.code 0
          (Machine.start entry.code { w₁ with
            frames := w₁.frames.modifyTop fun frame => { frame with line := some list } }))
  /-- An instruction is done, or a block. -/
  | moves {n : Nat} {pins : Pins} {code : Linked} {block : Int} {c c' : Config}
      (hmoves : Machine.Moves (engine n) pins code block c c') :
      Stays (.code pins code block c) (.code pins code block c')
  /-- An instruction runs a list. -/
  | runsList {pins : Pins} {code : Linked} {block : Int} {c : Config} {dst : Option Reg}
      {helper : Helper} {args : List Reg} {rest : List Instr}
      (hrest : c.rest = .call dst helper args :: rest)
      (hhelper : helper = .runList ∨ helper = .runResult) :
      Stays (.code pins code block c)
        (.list (.registers c.regs :: pins) (datumArg (args.map (readReg c.regs)) 0) c.world)
  /-- An instruction makes a call. -/
  | makesCall {pins : Pins} {code : Linked} {block : Int} {c : Config} {dst : Option Reg}
      {args : List Reg} {rest : List Instr}
      (hrest : c.rest = .call dst .runProcedure args :: rest) :
      Stays (.code pins code block c)
        (.call (.registers c.regs :: pins)
          { node := datumArg (args.map (readReg c.regs)) 0
            call := datumArg (args.map (readReg c.regs)) 0
            args := restArgs (args.map (readReg c.regs)) 1 } c.world)
  /-- An activation is over and ended with a tail call. -/
  | passes {pins : Pins} {a b : Activation} {w w' : World} (hpasses : a.PassesTo pins w b w') :
      Stays (.call pins a w) (.call pins b w')
  /-- An optional input has no argument, and its default is about to run. -/
  | runsDefault {n : Nat} {pins : Pins} {procedure call : Ref} {p : Procedure} {name : String}
      {default : Ref} {args left : List Ref} {done rest : List (String × Ref)} {w w₁ w₂ : World}
      (hrequired : bindRequired p.required args w = .ok (left, w₁))
      (hoptional : p.optional = done ++ (name, default) :: rest)
      (hdone : bindOptional (engine n) (.refs left :: pins) call done left w₁ =
        .ok (.ok [], w₂)) :
      Stays (.inputs pins procedure call p args w) (.list (.refs left :: pins) default w₂)
  /-- All inputs are bound, and the body becomes the running line. -/
  | bodyStarts {n : Nat} {pins : Pins} {procedure call : Ref} {p : Procedure} {entry : Entry}
      {args left more : List Ref} {w w₁ w₂ w₃ w₄ : World}
      (hrequired : bindRequired p.required args w = .ok (left, w₁))
      (hoptional : bindOptional (engine n) (.refs left :: pins) call p.optional left w₁ =
        .ok (.ok more, w₂))
      (hrest : bindRest p.rest more w₂ = .ok ((), w₃))
      (hcompile : (compileSource pins p.body (some procedure)).run w₃ = .ok (.ok entry, w₄)) :
      Stays (.inputs pins procedure call p args w)
        (.body pins procedure entry.code 0 { w₄ with
          frames := w₄.frames.modifyTop fun frame => { frame with line := some p.body } })
  | codeStarts {pins : Pins} {procedure : Ref} {code : Linked} {block : Int} {w : World} :
      Stays (.body pins procedure code block w)
        (.code (.constants code.constants :: pins) code block (Machine.start code w))
  /-- The code is left for a label of the body. -/
  | jumps {n : Nat} {pins : Pins} {procedure r source tag : Ref} {code : Linked} {block : Int}
      {target : LabelTarget} {w w₁ : World}
      (hcode : runCode (engine n) n pins code block w = .ok (r, w₁))
      (hgoto : w₁.heap.get r = .goto source tag)
      (hlabel : ((w₁.heap.procedure? procedure).bind fun p =>
        p.labels.get? (w₁.heap.keyOf tag)) = some target) :
      Stays (.body pins procedure code block w) (.body pins procedure code target.block w₁)

/-- A call gets a frame: its procedure is defined, there is room for it, and the number of inputs is
right. -/
inductive Opens : Moment → Moment → Prop
  | intro {pins : Pins} {a : Activation} {procedure : Ref} {p : Procedure} {w : World}
      (hprocedure : w.procedures.get? (w.heap.keyOf (w.heap.displayName a.call)) = some procedure)
      (hroom : w.frames.depth < w.settings.maxDepth)
      (hp : w.heap.procedure? procedure = some p) (hleast : p.minInputs ≤ a.args.length)
      (hmost : p.maxInputs.any (· < a.args.length) = false) :
      Opens (.call pins a w)
        (.inputs (.refs (a.node :: a.call :: procedure :: a.source.toList) :: pins) procedure
          a.call p a.args { w with frames := w.frames.push procedure a.call })

/-- What can follow a moment. -/
def Next (m m' : Moment) : Prop :=
  m.Stays m' ∨ m.Opens m'

/-- A moment leads to a result, in the state that is there when the level it is at is left. -/
def Ends (m : Moment) (r : Ref) (w' : World) : Prop :=
  ∃ n, match m with
    | .list pins source w => (engine n).list pins source w = .ok (r, w')
    | .code pins linked block c => Machine.Returns (engine n) pins linked block c r w'
    | .call pins a w => runCalls (engine n) n pins n a w = .ok (r, w')
    | .inputs pins procedure node p args w =>
      runBody (engine n) n pins procedure node p args w = .ok (r, w')
    | .body pins procedure linked block w =>
      runJumps (engine n) n pins procedure linked n block w = .ok (r, w')

end Moment

end LogoEngine
