import LogoEngine.Heap.Object

/-!
# Call frames

Variables are dynamically scoped: a read searches from the innermost call outwards and ends at the
global frame, and an assignment changes the binding a read would find. Each frame also keeps the
result of the last `TEST` of its procedure and the list it is running.
-/

namespace LogoEngine

/-- What belongs to one call, or to the top level. -/
structure Frame where
  /-- The procedure; none at the top level. -/
  procedure : Option Ref := none
  /-- The call. -/
  node : Option Ref := none
  locals : Table Ref := []
  /-- The result of the last `TEST`. -/
  test : Option Bool := none
  /-- The list being run. -/
  line : Option Ref := none
deriving DecidableEq, Repr

/-- The frames of the running calls, innermost first, and the global frame. -/
structure Frames where
  calls : List Frame := []
  globals : Frame := {}
deriving DecidableEq, Repr

namespace Frames

/-- Starts a call. -/
def push (fs : Frames) (procedure node : Ref) : Frames :=
  { fs with calls := { procedure := some procedure, node := some node } :: fs.calls }

/-- Ends the innermost call. -/
def pop (fs : Frames) : Frames :=
  { fs with calls := fs.calls.tail }

/-- The number of running calls. -/
def depth (fs : Frames) : Nat :=
  fs.calls.length

/-- The innermost frame. -/
def top (fs : Frames) : Frame :=
  fs.calls.head?.getD fs.globals

/-- Changes the innermost frame. -/
def modifyTop (fs : Frames) (f : Frame → Frame) : Frames :=
  match fs.calls with
  | [] => { fs with globals := f fs.globals }
  | frame :: rest => { fs with calls := f frame :: rest }

/-- The innermost value of a name among the given calls. -/
def lookup (key : String) : List Frame → Option Ref
  | [] => none
  | frame :: rest =>
    match frame.locals.get? key with
    | some r => some r
    | none => lookup key rest

/-- The value of a name. -/
def get? (fs : Frames) (key : String) : Option Ref :=
  match lookup key fs.calls with
  | some r => some r
  | none => fs.globals.locals.get? key

/-- Assigns to the innermost of the given calls that binds a name, if one does. -/
def assign? (key : String) (value : Ref) : List Frame → Option (List Frame)
  | [] => none
  | frame :: rest =>
    if frame.locals.has key then
      some ({ frame with locals := frame.locals.insert key value } :: rest)
    else (assign? key value rest).map (frame :: ·)

/-- Assigns to the innermost binding of a name, or makes a global one. -/
def set (fs : Frames) (key : String) (value : Ref) : Frames :=
  match assign? key value fs.calls with
  | some calls => { fs with calls }
  | none =>
    { fs with globals := { fs.globals with locals := fs.globals.locals.insert key value } }

/-- Binds a name in the innermost frame. -/
def bind (fs : Frames) (key : String) (value : Ref) : Frames :=
  fs.modifyTop fun frame => { frame with locals := frame.locals.insert key value }

/-- Every reference the frames hold. -/
def references (fs : Frames) : List Ref :=
  (fs.globals :: fs.calls).flatMap fun frame =>
    frame.procedure.toList ++ frame.node.toList ++ frame.locals.map Prod.snd ++
      frame.line.toList

end Frames

end LogoEngine
