import LogoEngine.Failure.Code
import LogoEngine.Table
import LogoEngine.Vocabulary.Operation
import LogoEngine.Vocabulary.Request
import LogoEngine.Word

/-!
# Objects

Every value is an object on a heap and is passed around as a reference to it. Two references are
the same value exactly when they are equal, whatever the objects hold. Objects refer to other
objects and never contain them, so lists of lists share structure.

A **node** is an executable piece of a parse. Nodes do not change once they are made, so an
object that is a node holds the whole tree below it.
-/

namespace LogoEngine

/-- A reference to an object. -/
structure Ref where
  index : Nat
deriving DecidableEq, Repr

/-- The one object that stands for "no value". -/
def Ref.nothing : Ref := ⟨0⟩

/-- What a node is, its inputs aside. -/
structure NodeHead where
  /-- The node itself. -/
  ref : Ref
  /-- Its identity as a source of compiled code. -/
  id : Nat
  /-- Its name, usually a word. -/
  name : Ref
  generator : Generator
  returns : Request
deriving DecidableEq, Repr

/-- A node with its inputs, or a plain value where a node could stand. -/
inductive Node where
  | call (head : NodeHead) (inputs : List Node)
  | datum (ref : Ref)
deriving Repr

/-- The object a node is. -/
def Node.ref : Node → Ref
  | call head _ => head.ref
  | datum ref => ref

/-- A parse: one group of nodes per line. -/
abbrev Parse := List (List Node)

/-- One cell of a list; the empty list is a cell without a pair. A cell that was parsed remembers
the parse and when it was made. -/
structure Cell where
  /-- The identity of the list as a source of compiled code. -/
  id : Nat
  /-- Head and tail. -/
  pair : Option (Ref × Ref)
  /-- The time of the parse; zero if there was none. -/
  stamp : Nat
  parse : Option Parse

/-- Where a label leads: a block of the procedure's code, and the line that defined it. -/
structure LabelTarget where
  block : Nat
  line : Ref
deriving DecidableEq, Repr

/-- A user-defined procedure. Its names are in upper case. -/
structure Procedure where
  name : String
  required : List String
  /-- Optional inputs with the lists that compute their defaults. -/
  optional : List (String × Ref)
  /-- The input that takes all further arguments. -/
  rest : Option String
  /-- How many inputs a call without parentheses takes. -/
  defaultInputs : Nat
  body : Ref
  /-- The labels met whenever the body was lowered. -/
  labels : Table LabelTarget

/-- The fewest inputs of a procedure. -/
def Procedure.minInputs (p : Procedure) : Nat :=
  p.required.length

/-- The most inputs of a procedure; `none` if there is no limit. -/
def Procedure.maxInputs (p : Procedure) : Option Nat :=
  match p.rest with
  | some _ => none
  | none => some (p.required.length + p.optional.length)

/-- What is known about an error, and what a throw carries. -/
structure ErrorRecord where
  code : ErrorCode
  /-- The catch tag; the word `ERROR` for ordinary errors. -/
  tag : Ref
  /-- The message word. -/
  message : Ref
  /-- The value a throw carries. -/
  output : Option Ref
  /-- The call that was running. -/
  procedure : Option Ref
  /-- The list that was running. -/
  line : Option Ref
deriving DecidableEq, Repr

/-- An object. The last four kinds before `nothing` are **tokens**: compiled code returns one
instead of a value to signal an error, a jump, a tail call or the end of a procedure. -/
inductive Object where
  | word (w : Word)
  | list (cell : Cell)
  /-- A vector whose first element has the index `origin`. -/
  | array (origin : Int) (items : Array Ref)
  | node (head : NodeHead) (inputs : List Node)
  | procedure (p : Procedure)
  | error (e : ErrorRecord)
  | goto (source tag : Ref)
  | continuation (source call : Ref) (args : List Ref)
  /-- The end of a procedure, with its output if there is one. -/
  | ret (source : Ref) (value : Option Ref)
  | nothing

/-- The kinds of objects. -/
inductive Kind where
  | word | list | array | node | procedure | error | goto | continuation | ret | nothing
deriving DecidableEq, Repr

namespace Kind

/-- Every kind, in the order of the allocation ledger. -/
def all : List Kind :=
  [word, list, array, node, procedure, error, goto, continuation, ret, nothing]

/-- The name of a kind. -/
def name : Kind → String
  | word => "Word"
  | list => "List"
  | array => "Array"
  | node => "AstNode"
  | procedure => "Procedure"
  | error => "Error"
  | goto => "Goto"
  | continuation => "Continuation"
  | ret => "Return"
  | nothing => "Nothing"

/-- One bit per kind, for tests on several kinds at once. -/
def tag : Kind → Nat
  | word => 0x1
  | list => 0x2
  | array => 0x4
  | node => 0x200
  | procedure => 0x400
  | error => 0x10
  | goto => 0x20
  | continuation => 0x40
  | ret => 0x80
  | nothing => 0x100

end Kind

/-! ### Sets of kinds -/

/-- Words. -/
def wordMask : Nat := 0x1

/-- Lists. -/
def listMask : Nat := 0x2

/-- Words and lists. -/
def wordOrListMask : Nat := 0x3

/-- Words, lists and arrays. -/
def dataMask : Nat := 0x7

/-- Errors and the other tokens. -/
def flowMask : Nat := 0xF0

/-- What an unbound variable may hold. -/
def unboundMask : Nat := 0x300

namespace Object

/-- The kind of an object. -/
def kind : Object → Kind
  | word _ => .word
  | list _ => .list
  | array _ _ => .array
  | node _ _ => .node
  | procedure _ => .procedure
  | error _ => .error
  | goto _ _ => .goto
  | continuation _ _ _ => .continuation
  | ret _ _ => .ret
  | nothing => .nothing

/-- Whether the kind of an object is in a set of kinds. -/
def hasTag (o : Object) (mask : Nat) : Bool :=
  o.kind.tag &&& mask != 0

/-- Words, lists and arrays are data. -/
def isData (o : Object) : Bool :=
  o.hasTag dataMask

/-- Errors, jumps, tail calls and returns are tokens. -/
def isFlow (o : Object) : Bool :=
  o.hasTag flowMask

/-- The word an object is. -/
def word? : Object → Option Word
  | word w => some w
  | _ => none

/-- The list cell an object is. -/
def cell? : Object → Option Cell
  | list c => some c
  | _ => none

/-- The procedure an object is. -/
def procedure? : Object → Option Procedure
  | procedure p => some p
  | _ => none

/-- The error record an object is. -/
def error? : Object → Option ErrorRecord
  | error e => some e
  | _ => none

end Object

end LogoEngine
