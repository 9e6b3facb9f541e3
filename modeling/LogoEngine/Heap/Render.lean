import LogoEngine.Heap.Basic

/-!
# Values as text

The **show form** of a list has brackets, the **print form** has none around the outermost list.
Nesting deeper than 64 levels is written `...`; a node is written by its name and an error by its
message, where nesting starts anew.
-/

namespace LogoEngine.Heap

/-- The deepest nesting that is written out. -/
def maxDepth : Nat := 64

/-- The show form of a value with `depth` more levels of nesting allowed, where `inner` gives the
print form of the name of a node or the message of an error. -/
def showWith (h : Heap) (inner : Ref → String) : Nat → Ref → String
  | 0, _ => "..."
  | depth + 1, r =>
    let join (items : List Ref) : String :=
      String.intercalate " " (items.map (showWith h inner depth))
    match h.get r with
    | .word w => w.toText
    | .list _ => "[" ++ join (h.items r) ++ "]"
    | .array origin items =>
      "\x7b" ++ join items.toList ++ "\x7d" ++ (if origin = 1 then "" else s!"@{origin}")
    | .node head _ => inner head.name
    | .procedure p => p.name
    | .error e => inner e.message
    | .goto _ _ | .continuation _ _ _ | .ret _ _ | .nothing => ""

/-- The print form built on a show form for values and one for elements. -/
def printWith (h : Heap) (whole element : Ref → String) (r : Ref) : String :=
  match h.get r with
  | .list _ => String.intercalate " " ((h.items r).map element)
  | _ => whole r

/-- The print form, through at most `hops` names and messages. -/
def printUpTo (h : Heap) : Nat → Ref → String
  | 0, _ => ""
  | hops + 1, r =>
    printWith h (showWith h (printUpTo h hops) (maxDepth + 1))
      (showWith h (printUpTo h hops) maxDepth) r

/-- The print form. Names and messages are older than what they name, so there are at most as
many hops as objects. -/
def printForm (h : Heap) (r : Ref) : String :=
  h.printUpTo (h.objects.size + 1) r

/-- The show form. -/
def showForm (h : Heap) (r : Ref) : String :=
  showWith h (h.printUpTo (h.objects.size + 1)) (maxDepth + 1) r

/-- The upper-case name of a value used as a name: the key of a word, else the print form. -/
def keyOf (h : Heap) (r : Ref) : String :=
  match h.word? r with
  | some w => w.key
  | none => Text.upper (h.printForm r)

/-- The key of the tag of an error; only words have one. -/
def tagKey (h : Heap) (e : ErrorRecord) : String :=
  match h.word? e.tag with
  | some w => w.key
  | none => ""

/-- A value with its kind, for diagnosis. -/
def describe (h : Heap) (r : Ref) : String :=
  match h.get r with
  | .word _ => "Word(" ++ h.showForm r ++ ")"
  | .list _ => "List(" ++ h.showForm r ++ ")"
  | .array _ _ => "Array(" ++ h.showForm r ++ ")"
  | .node head _ => "AstNode(" ++ h.printForm head.name ++ ")"
  | .procedure p => "Procedure(" ++ p.name ++ ")"
  | .error e => "Error(" ++ e.code.name ++ ", " ++ h.printForm e.message ++ ")"
  | o => o.kind.name

end LogoEngine.Heap
