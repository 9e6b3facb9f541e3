import LogoEngine.Heap.Sketch

/-!
# The host

What lies outside the evaluator: the console, the parser, the person who answers a `PAUSE`, and
the turtle's canvas. The host is **scripted**: its replies and parses are given beforehand, and
what it was asked is recorded. A plain console can only be written to.
-/

namespace LogoEngine

/-- The turtle and its canvas. -/
structure Canvas where
  x : Float := 0.0
  y : Float := 0.0
  heading : Float := 0.0
  penDown : Bool := true
  shown : Bool := true
  /-- The greatest distance from the axes. -/
  bounds : Option Float := none

namespace Canvas

/-- Moves the turtle, unless that leads out of bounds. -/
def moveTo? (c : Canvas) (x y : Float) : Option Canvas :=
  let outside := c.bounds.any fun b => x.abs > b || y.abs > b
  if outside then none else some { c with x, y }

/-- Carries out a command; `none` if it leads out of bounds. The heading does not matter to moves
and does not wrap. -/
def act? (c : Canvas) (op : TurtleOp) (args : List Float) : Option Canvas :=
  let a := args.head?.getD 0.0
  let b := (args.drop 1).head?.getD 0.0
  match op with
  | .forward => c.moveTo? c.x (c.y + a)
  | .back => c.moveTo? c.x (c.y - a)
  | .left => some { c with heading := c.heading - a }
  | .right => some { c with heading := c.heading + a }
  | .setXY => c.moveTo? a b
  | .setX => c.moveTo? a c.y
  | .setY => c.moveTo? c.x a
  | .setHeading => some { c with heading := a }
  | .home | .clearScreen => some { c with x := 0.0, y := 0.0, heading := 0.0 }
  | .clean => some c
  | .penDown => some { c with penDown := true }
  | .penUp => some { c with penDown := false }
  | .showTurtle => some { c with shown := true }
  | .hideTurtle => some { c with shown := false }

end Canvas

/-- What the host was asked for. -/
structure Journal where
  output : String := ""
  pauses : Nat := 0
  /-- The sources that were to be parsed, shown. -/
  parsed : Array String := #[]
  /-- The turtle commands with their numbers. -/
  moves : Array (String × List Float) := #[]

/-- The host. -/
structure Host where
  /-- A plain console has no parser, no turtle and nobody to answer. -/
  plain : Bool := false
  /-- The canvas, if there are graphics. -/
  canvas : Option Canvas := none
  /-- The answers to come; `none` gives up and returns to the top level. -/
  replies : List (Option Ref) := []
  /-- The parses known, by the shown source. -/
  parses : Table (List (List Sketch)) := []
  /-- Objects the host keeps under names. -/
  kept : Table Ref := []
  journal : Journal := {}

namespace Host

/-- Writes text. -/
def write (host : Host) (s : String) : Host :=
  { host with journal := { host.journal with output := host.journal.output ++ s } }

/-- Asks for an answer: a value, or `none` to return to the top level. -/
def pause (host : Host) : Option Ref × Host :=
  if host.plain then (none, host)
  else
    let host := { host with journal := { host.journal with pauses := host.journal.pauses + 1 } }
    match host.replies with
    | [] => (none, host)
    | reply :: rest => (reply, { host with replies := rest })

/-- Asks for the parse of a source that is shown as `shown`. -/
def parse (host : Host) (shown : String) : Option (List (List Sketch)) × Host :=
  if host.plain then (none, host)
  else
    (host.parses.get? shown,
      { host with journal := { host.journal with parsed := host.journal.parsed.push shown } })

/-- Records a turtle command. -/
def recordMove (host : Host) (name : String) (args : List Float) : Host :=
  { host with journal := { host.journal with moves := host.journal.moves.push (name, args) } }

/-- Has the turtle carry out something that gives a new canvas, or leads out of bounds. -/
def moveTurtle (host : Host) (name : String) (args : List Float)
    (move? : Canvas → Option Canvas) : Except ErrorCode Unit × Host :=
  match host.canvas with
  | none => (.error .noGraphics, host)
  | some canvas =>
    let host := host.recordMove name args
    match move? canvas with
    | some canvas => (.ok (), { host with canvas := some canvas })
    | none => (.error .turtleOutOfBounds, host)

/-- A turtle command. -/
def turtle (host : Host) (op : TurtleOp) (args : List Float) : Except ErrorCode Unit × Host :=
  host.moveTurtle op.name args fun canvas => canvas.act? op args

/-- Moves the turtle to a position. -/
def setPos (host : Host) (x y : Float) : Except ErrorCode Unit × Host :=
  host.moveTurtle "set_pos" [x, y] fun canvas => canvas.moveTo? x y

/-- The turtle as it is; without graphics it rests at the origin. -/
def turtleState (host : Host) : Canvas :=
  host.canvas.getD {}

/-- Every reference the host holds. -/
def references (host : Host) : List Ref :=
  host.replies.filterMap id ++ host.kept.map Prod.snd

end Host

end LogoEngine
