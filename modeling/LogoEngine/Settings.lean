import LogoEngine.Code.Linked
import LogoEngine.Json.Reader

/-!
# Settings

How code is linked and checked and how deep calls may nest. Settings can be read from a JSON
object; members that are missing keep their defaults, and members are looked at by name, so of two
faults the one with the lesser name is reported.
-/

namespace LogoEngine

/-- The settings of an evaluator. -/
structure Settings where
  backend : Backend := .machine
  /-- Whether lowered code is checked before it is linked. -/
  verify : Bool := true
  /-- Whether lowered code is written to the trace. -/
  dump : Bool := false
  /-- How many procedure calls may be nested. -/
  maxDepth : Nat := 1000
deriving DecidableEq, Repr

namespace Settings

/-- Takes over one member of a configuration object. -/
def applyMember (s : Settings) (name : String) (value : Json) : Except CompileError Settings :=
  let unexpected : Except CompileError Settings :=
    .error (.config ("unexpected " ++ name ++ ": " ++ value.render))
  if name = "backend" then
    match value with
    | .text text =>
      match Backend.ofName? text with
      | some backend => .ok { s with backend }
      | none => .error (.config ("unknown backend " ++ Text.quoted text))
    | _ => unexpected
  else if name = "verify_ir" then
    match value with
    | .truth b => .ok { s with verify := b }
    | _ => unexpected
  else if name = "dump_ir" then
    match value with
    | .truth b => .ok { s with dump := b }
    | _ => unexpected
  else if name = "max_depth" then
    match value with
    | .number (.natural (n + 1)) => .ok { s with maxDepth := n + 1 }
    | .number n =>
      .error (.config ("max_depth must be a positive integer, got " ++ n.render))
    | _ => unexpected
  else unexpected

/-- Takes over members in order, up to the first fault. -/
def applyMembers : Settings → List (String × Json) → Except CompileError Settings
  | s, [] => .ok s
  | s, (name, value) :: rest => do applyMembers (← s.applyMember name value) rest

/-- The settings a JSON value describes. -/
def ofJson : Json → Except CompileError Settings
  | .object members => applyMembers {} members
  | _ => .error (.config "configuration must be an object")

/-- The settings a document describes; `none` if it is no JSON document. -/
def parse? (text : String) : Option (Except CompileError Settings) :=
  (Json.parse? text).map ofJson

end Settings

end LogoEngine
