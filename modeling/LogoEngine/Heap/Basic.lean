import LogoEngine.Heap.Object

/-!
# The heap

Objects are only ever added; lists, arrays and procedures can also be changed in place. The heap
also hands out the identities of lists and nodes and keeps the clock that dates parses and
definitions.

Operations that make objects are state transformers, `Making α`.
-/

namespace LogoEngine

/-- All objects made so far. The first one is "no value". -/
structure Heap where
  objects : Array Object := #[.nothing]
  /-- The identity of the next list or node. -/
  nextId : Nat := 1
  clock : Nat := 0

instance : Inhabited Heap := ⟨⟨#[], 1, 0⟩⟩

/-- A computation that may make or change objects. -/
abbrev Making := StateM Heap

namespace Heap

/-- The object of a reference. -/
def get (h : Heap) (r : Ref) : Object :=
  h.objects.getD r.index .nothing

/-- Replaces an object in place. -/
def set (h : Heap) (r : Ref) (o : Object) : Heap :=
  { h with objects := h.objects.setIfInBounds r.index o }

/-- The word a reference leads to. -/
def word? (h : Heap) (r : Ref) : Option Word :=
  (h.get r).word?

/-- The list cell a reference leads to. -/
def cell? (h : Heap) (r : Ref) : Option Cell :=
  (h.get r).cell?

/-- The procedure a reference leads to. -/
def procedure? (h : Heap) (r : Ref) : Option Procedure :=
  (h.get r).procedure?

/-- The node a reference leads to, or the value itself. -/
def nodeOf (h : Heap) (r : Ref) : Node :=
  match h.get r with
  | .node head inputs => .call head inputs
  | _ => .datum r

/-- Whether a reference leads to data. -/
def isData (h : Heap) (r : Ref) : Bool :=
  (h.get r).isData

/-- Whether a reference leads to a token. -/
def isFlow (h : Heap) (r : Ref) : Bool :=
  (h.get r).isFlow

/-- The numeric reading of a value. -/
def number? (h : Heap) (r : Ref) : Option Float :=
  (h.word? r).bind Word.number?

/-- The reading of a value as a truth value. -/
def truth? (h : Heap) (r : Ref) : Option Bool :=
  (h.word? r).bind Word.truth?

/-- What messages call a value: a node is called by its name. -/
def displayName (h : Heap) (r : Ref) : Ref :=
  match h.get r with
  | .node head _ => head.name
  | _ => r

/-- The identity of a list or node. -/
def sourceId? (h : Heap) (r : Ref) : Option Nat :=
  match h.get r with
  | .list cell => some cell.id
  | .node head _ => some head.id
  | _ => none

/-! ### Making objects -/

/-- Adds an object. -/
def add (h : Heap) (o : Object) : Ref × Heap :=
  (⟨h.objects.size⟩, { h with objects := h.objects.push o })

/-! ### What adding and replacing do to the objects -/

@[simp]
theorem objects_size_set (h : Heap) (r : Ref) (o : Object) :
    (h.set r o).objects.size = h.objects.size := by
  simp [set]

theorem get_set_self (h : Heap) {r : Ref} (o : Object) (hr : r.index < h.objects.size) :
    (h.set r o).get r = o := by
  simp [get, set, Array.getD, hr]

theorem get_set_of_ne (h : Heap) {r s : Ref} (o : Object) (hne : s ≠ r) :
    (h.set r o).get s = h.get s := by
  have hindex : r.index ≠ s.index := fun heq => hne (by cases r; cases s; simp_all)
  by_cases hs : s.index < h.objects.size
  · simp [get, set, Array.getD, hs, hindex]
  · simp [get, set, Array.getD, hs]

/-- A new object is read back by its reference. -/
theorem get_add_self (h : Heap) (o : Object) : (h.add o).2.get (h.add o).1 = o := by
  simp [get, add, Array.getD]

/-- Adding an object leaves the older ones as they are. -/
theorem get_add_of_lt (h : Heap) {r : Ref} (o : Object) (hr : r.index < h.objects.size) :
    (h.add o).2.get r = h.get r := by
  have hr' : r.index < h.objects.size + 1 := Nat.lt_succ_of_lt hr
  simp [get, add, Array.getD, hr, hr', Array.getElem_push_lt hr]

end Heap

/-- Makes an object. -/
def newObject (o : Object) : Making Ref :=
  fun h => h.add o

/-- Makes a word. -/
def newWord (w : Word) : Making Ref :=
  newObject (.word w)

/-- Makes a word from its text. -/
def newText (s : String) : Making Ref :=
  newWord (.text s)

/-- Makes a word from a number. -/
def newNumber (x : Float) : Making Ref :=
  newWord (.number x)

/-- Makes a word from a truth value. -/
def newTruth (b : Bool) : Making Ref :=
  newWord (.truth b)

/-- Takes the next identity. -/
def nextId : Making Nat :=
  fun h => (h.nextId, { h with nextId := h.nextId + 1 })

/-- Advances the clock and reads it. -/
def tick : Making Nat :=
  fun h => (h.clock + 1, { h with clock := h.clock + 1 })

/-- Makes a list cell. -/
def newCell (pair : Option (Ref × Ref)) : Making Ref := do
  let id ← nextId
  newObject (.list ⟨id, pair, 0, none⟩)

/-- Makes an empty list. -/
def newEmpty : Making Ref :=
  newCell none

/-- Makes the list of the given elements, its last cell first. -/
def newList (items : List Ref) : Making Ref := do
  let empty ← newEmpty
  items.reverse.foldlM (fun tail head => newCell (some (head, tail))) empty

/-- Makes an array. -/
def newArray (origin : Int) (items : List Ref) : Making Ref :=
  newObject (.array origin items.toArray)

/-- Makes a node. -/
def newNode (name : Ref) (generator : Generator) (returns : Request) (inputs : List Ref) :
    Making Ref := do
  let id ← nextId
  fun h =>
    let head : NodeHead := ⟨⟨h.objects.size⟩, id, name, generator, returns⟩
    h.add (.node head (inputs.map h.nodeOf))

/-- Makes a node that stands for a value. -/
def newLiteral (value : Ref) : Making Ref := do
  newNode (← newText "literal") .literal .datum [value]

/-- Makes a node that reads a variable. -/
def newValueOf (subject : String) : Making Ref := do
  let name ← newText "valueOf"
  newNode name .valueOf .datum [← newText subject]

/-- Makes a call of a user procedure. -/
def newProcedureCall (name : String) (args : List Ref) : Making Ref := do
  newNode (← newText name) .execProcedure .datumOrNothing args

namespace Heap

/-! ### Lists -/

/-- Head and tail of a list that is not empty. -/
def pair? (h : Heap) (r : Ref) : Option (Ref × Ref) :=
  (h.cell? r).bind Cell.pair

/-- Whether a reference leads to an empty list. -/
def isEmptyList (h : Heap) (r : Ref) : Bool :=
  match h.cell? r with
  | some cell => cell.pair.isNone
  | none => false

/-- The elements of a list, at most `fuel` of them. -/
def itemsUpTo (h : Heap) : Nat → Ref → List Ref
  | 0, _ => []
  | fuel + 1, r =>
    match h.pair? r with
    | some (head, tail) => head :: itemsUpTo h fuel tail
    | none => []

/-- The elements of a list. A list without a cycle has no more cells than there are objects. -/
def items (h : Heap) (r : Ref) : List Ref :=
  h.itemsUpTo h.objects.size r

/-- The list that starts with the element of the given index, counted from zero. -/
def dropCells (h : Heap) : Nat → Ref → Option Ref
  | 0, r => some r
  | n + 1, r => (h.pair? r).bind fun pair => dropCells h n pair.2

/-- The element of a list with the given index, counted from one. -/
def item? (h : Heap) (r : Ref) (index : Nat) : Option Ref :=
  match index with
  | 0 => none
  | n + 1 => (h.dropCells n r).bind fun cell => (h.pair? cell).map Prod.fst

/-- Replaces the head of a list that is not empty. -/
def setFirst? (h : Heap) (r value : Ref) : Option Heap :=
  match h.cell? r with
  | some { id, pair := some (_, tail), stamp, parse } =>
    some (h.set r (.list ⟨id, some (value, tail), stamp, parse⟩))
  | _ => none

/-- Replaces the tail of a list that is not empty by another list. -/
def setTail? (h : Heap) (r tail : Ref) : Option Heap :=
  match h.cell? tail, h.cell? r with
  | some _, some { id, pair := some (head, _), stamp, parse } =>
    some (h.set r (.list ⟨id, some (head, tail), stamp, parse⟩))
  | _, _ => none

/-- Replaces the element of a list with the given index, counted from one. -/
def setItem? (h : Heap) (r : Ref) (index : Nat) (value : Ref) : Option Heap :=
  match index with
  | 0 => none
  | n + 1 => (h.dropCells n r).bind fun cell => h.setFirst? cell value

/-! ### Parses and their dates -/

/-- Dates the parse of a list with the present time. -/
def restamp (h : Heap) (r : Ref) : Heap :=
  match h.cell? r with
  | some cell =>
    let (now, h) := tick h
    h.set r (.list { cell with stamp := now })
  | none => h

/-- Gives a list a new parse, dated with the present time. -/
def attach (h : Heap) (r : Ref) (parse : Parse) : Heap :=
  match h.cell? r with
  | some cell =>
    let (now, h) := tick h
    h.set r (.list { cell with stamp := now, parse := some parse })
  | none => h

/-! ### Arrays -/

/-- The position of an index in an array of the given origin and size. -/
def slot? (origin : Int) (size : Nat) (index : Int) : Option Nat :=
  let offset := index - origin
  if 0 ≤ offset ∧ offset < size then some offset.toNat else none

/-- The element of an array at an index. -/
def arrayGet? (h : Heap) (r : Ref) (index : Int) : Option Ref :=
  match h.get r with
  | .array origin items => (slot? origin items.size index).bind fun slot => items[slot]?
  | _ => none

/-- Replaces the element of an array at an index. -/
def arraySet? (h : Heap) (r : Ref) (index : Int) (value : Ref) : Option Heap :=
  match h.get r with
  | .array origin items =>
    (slot? origin items.size index).map fun slot =>
      h.set r (.array origin (items.setIfInBounds slot value))
  | _ => none

/-! ### Procedures -/

/-- Records where labels of a procedure lead. -/
def recordLabels (h : Heap) (r : Ref) (labels : List (String × LabelTarget)) : Heap :=
  match h.get r with
  | .procedure p =>
    h.set r (.procedure { p with labels := labels.foldl (fun t l => t.insert l.1 l.2) p.labels })
  | _ => h

end Heap

end LogoEngine
