import LogoEngine.Eval.Raise
import LogoEngine.Heap.Equality

/-!
# Operations on data

What each operation does is decided from the heap and the inputs alone, by `dataResult`: it finds
a value that exists, makes a new one, changes one object in place, or dislikes an input.
Everything else (making the error, giving the node as the result of a change) is `applyData`.
-/

namespace LogoEngine

/-- What an operation on data comes to. -/
inductive DataResult where
  /-- A value that exists already. -/
  | found (r : Ref)
  /-- A new value. -/
  | made (make : Making Ref)
  /-- One object is replaced. -/
  | changed (target : Ref) (object : Object)
  /-- An input is refused. -/
  | dislikes (r : Ref)

namespace DataResult

/-- A new word. -/
def text (s : String) : DataResult :=
  made (newText s)

/-- A new word for a list of characters. -/
def chars (cs : List Char) : DataResult :=
  text (String.ofList cs)

/-- A new truth value. -/
def truth (b : Bool) : DataResult :=
  made (newTruth b)

/-- A value that may be missing. -/
def orDislike (r : Option Ref) (culprit : Ref) : DataResult :=
  match r with
  | some r => found r
  | none => dislikes culprit

end DataResult

/-- The largest array that can be made. -/
def maxArraySize : Nat := Nat.pow 2 24

namespace Heap

/-- The integer a value reads as, if it is below nine quadrillions. -/
def integer? (h : Heap) (r : Ref) : Option Int :=
  ((h.number? r).bind Decimal.toInt?).filter fun n => n.natAbs < 9000000000000000

/-- The integer a value reads as, if it has 32 bits. -/
def origin? (h : Heap) (r : Ref) : Option Int :=
  (h.integer? r).filter fun n => -0x80000000 ≤ n && n < 0x80000000

/-- The characters of a word. -/
def chars? (h : Heap) (r : Ref) : Option (List Char) :=
  (h.word? r).map fun w => w.toText.toList

/-- The texts of words joined together, or the first value that is no word. -/
def joinWords (h : Heap) : List Ref → Except Ref String
  | [] => .ok ""
  | r :: rest =>
    match h.word? r with
    | some w => (h.joinWords rest).map (w.toText ++ ·)
    | none => .error r

/-- The elements of lists and the words themselves, or the first value that is neither. -/
def joinItems (h : Heap) : List Ref → Except Ref (List Ref)
  | [] => .ok []
  | r :: rest =>
    match h.get r with
    | .list _ => (h.joinItems rest).map (h.items r ++ ·)
    | .word _ => (h.joinItems rest).map (r :: ·)
    | _ => .error r

/-- The first cell of a list whose head passes a test, among the first `fuel` cells. -/
def findCell (h : Heap) (test : Ref → Bool) : Nat → Ref → Option Ref
  | 0, _ => none
  | fuel + 1, r =>
    match h.pair? r with
    | some (head, tail) => if test head then some r else findCell h test fuel tail
    | none => none

/-- The origin of an array to make: the second input, or one. -/
def originInput (h : Heap) (args : List Ref) : Except Ref Int :=
  match args[1]? with
  | none => .ok 1
  | some r =>
    match h.origin? r with
    | some n => .ok n
    | none => .error r

end Heap

/-- The character with a code, if there is one. -/
def charOfCode? (n : Int) : Option Char :=
  if 0 ≤ n ∧ (n < 0xD800 ∨ (0xE000 ≤ n ∧ n < 0x110000)) then some (Char.ofNat n.toNat) else none

/-- Whether a word of one character occurs in a word, ignoring case. -/
def charOccurs (h : Heap) (a : Ref) (w : Word) : Bool :=
  match h.word? a with
  | some v => v.toText.length == 1 && Text.contains w.key v.key
  | none => false

/-- The rest of a word from the first character that equals the word `a`, ignoring case. -/
def textFromChar (h : Heap) (a : Ref) (w : Word) : List Char :=
  match h.chars? a with
  | some [c] => w.toText.toList.dropWhile fun d => Text.upperChar d != Text.upperChar c
  | _ => []

/-- Makes an array of empty lists. -/
def newBlankArray (size : Nat) (origin : Int) : Making Ref := do
  let items ← (List.replicate size ()).mapM fun _ => newEmpty
  newArray origin items

/-- What an operation comes to. Inputs that are missing count as no value. `THING` needs the
frames and is not treated here. -/
def dataResult (h : Heap) (op : DataOp) (args : List Ref) : DataResult :=
  let a := args.head?.getD Ref.nothing
  let b := args[1]?.getD Ref.nothing
  match op with
  | .word =>
    match h.joinWords args with
    | .ok s => .text s
    | .error culprit => .dislikes culprit
  | .list => .made (newList args)
  | .sentence =>
    match h.joinItems args with
    | .ok items => .made (newList items)
    | .error culprit => .dislikes culprit
  | .fput =>
    match h.get b, h.word? a with
    | .list _, _ => .made (newCell (some (a, b)))
    | .word w, some head => .text (head.toText ++ w.toText)
    | _, _ => .dislikes b
  | .lput =>
    match h.get b, h.word? a with
    | .list _, _ => .made (newList (h.items b ++ [a]))
    | .word w, some tail => .text (w.toText ++ tail.toText)
    | _, _ => .dislikes b
  | .array =>
    match h.integer? a with
    | some n =>
      if 0 ≤ n ∧ n ≤ maxArraySize then
        match h.originInput args with
        | .ok origin => .made (newBlankArray n.toNat origin)
        | .error culprit => .dislikes culprit
      else .dislikes a
    | none => .dislikes a
  | .listToArray =>
    match h.get a with
    | .list _ =>
      match h.originInput args with
      | .ok origin => .made (newArray origin (h.items a))
      | .error culprit => .dislikes culprit
    | _ => .dislikes a
  | .arrayToList =>
    match h.get a with
    | .array _ items => .made (newList items.toList)
    | _ => .dislikes a
  | .first =>
    match h.get a with
    | .word w =>
      match w.toText.toList with
      | c :: _ => .chars [c]
      | [] => .dislikes a
    | .list _ => .orDislike ((h.pair? a).map Prod.fst) a
    | .array _ items => .orDislike items[0]? a
    | _ => .dislikes a
  | .last =>
    match h.get a with
    | .word w =>
      match w.toText.toList.getLast? with
      | some c => .chars [c]
      | none => .dislikes a
    | .list _ => .orDislike (h.items a).getLast? a
    | .array _ items => .orDislike items.back? a
    | _ => .dislikes a
  | .butFirst =>
    match h.get a with
    | .word w =>
      match w.toText.toList with
      | _ :: rest => .chars rest
      | [] => .dislikes a
    | .list _ => .orDislike ((h.pair? a).map Prod.snd) a
    | _ => .dislikes a
  | .butLast =>
    match h.get a with
    | .word w => if w.isEmpty then .dislikes a else .chars w.toText.toList.dropLast
    | .list _ =>
      if h.isEmptyList a then .dislikes a else .made (newList (h.items a).dropLast)
    | _ => .dislikes a
  | .item =>
    match h.integer? a with
    | none => .dislikes a
    | some n =>
      match h.get b with
      | .word w =>
        match if 1 ≤ n then w.toText.toList[n.toNat - 1]? else none with
        | some c => .chars [c]
        | none => .dislikes a
      | .list _ => .orDislike (if 1 ≤ n then h.item? b n.toNat else none) a
      | .array _ _ => .orDislike (h.arrayGet? b n) a
      | _ => .dislikes b
  | .setItem | .dotSetItem =>
    let value := args[2]?.getD Ref.nothing
    match h.get b with
    | .array origin items =>
      if op == .setItem && h.contains value b then .dislikes value
      else
        match (h.integer? a).bind (Heap.slot? origin items.size) with
        | some slot => .changed b (.array origin (items.setIfInBounds slot value))
        | none => .dislikes a
    | _ => .dislikes b
  | .dotSetFirst =>
    match h.cell? a with
    | some { id, pair := some (_, tail), stamp, parse } =>
      .changed a (.list ⟨id, some (b, tail), stamp, parse⟩)
    | _ => .dislikes a
  | .dotSetBf =>
    match h.cell? a, h.cell? b with
    | none, _ => .dislikes a
    | some _, none => .dislikes b
    | some { id, pair := some (head, _), stamp, parse }, some _ =>
      .changed a (.list ⟨id, some (head, b), stamp, parse⟩)
    | some { pair := none, .. }, some _ => .dislikes a
  | .wordP => .truth (h.word? a).isSome
  | .listP => .truth (h.cell? a).isSome
  | .arrayP => .truth ((h.get a).kind == .array)
  | .emptyP =>
    match h.get a with
    | .word w => .truth w.isEmpty
    | .list cell => .truth cell.pair.isNone
    | _ => .truth false
  | .equalP => .truth (h.equal a b)
  | .notEqualP => .truth !(h.equal a b)
  | .beforeP =>
    match h.word? a, h.word? b with
    | some v, some w => .truth (v.key < w.key)
    | none, _ => .dislikes a
    | _, none => .dislikes b
  | .dotEq => .truth (a == b)
  | .memberP =>
    match h.get b with
    | .list _ => .truth ((h.items b).any (h.equal a))
    | .array _ items => .truth (items.any (h.equal a))
    | .word w => .truth (charOccurs h a w)
    | _ => .dislikes b
  | .substringP =>
    match h.word? a, h.word? b with
    | some v, some w => .truth (Text.contains w.key v.key)
    | _, _ => .truth false
  | .numberP => .truth (h.number? a).isSome
  | .count =>
    match h.get a with
    | .word w => .made (newNumber (Float.ofNat w.toText.length))
    | .list _ => .made (newNumber (Float.ofNat (h.items a).length))
    | .array _ items => .made (newNumber (Float.ofNat items.size))
    | _ => .dislikes a
  | .ascii =>
    match h.chars? a with
    | some [c] => .made (newNumber (Float.ofNat c.toNat))
    | _ => .dislikes a
  | .char =>
    match (h.integer? a).bind charOfCode? with
    | some c => .chars [c]
    | none => .dislikes a
  | .member =>
    match h.get b with
    | .list _ =>
      match h.findCell (h.equal a) h.objects.size b with
      | some cell => .found cell
      | none => .made newEmpty
    | .word w => .chars (textFromChar h a w)
    | _ => .dislikes b
  | .lowercase =>
    match h.word? a with
    | some w => .text (Text.lower w.toText)
    | none => .dislikes a
  | .uppercase =>
    match h.word? a with
    | some w => .text (Text.upper w.toText)
    | none => .dislikes a
  | .thing => .dislikes a

/-- The value of the variable that a value names, for `THING`. -/
def variableNamed (name : Ref) : Run Ref := do
  let w ← get
  match (w.frames.get? (w.heap.keyOf name)).filter w.heap.isData with
  | some r => return r
  | none => raise .noValue [name]

/-- Carries out an operation for a node. A change has the node as its result. -/
def applyData (op : DataOp) (node : Ref) (args : List Ref) : Run Ref := do
  if op = .thing then
    variableNamed (args.head?.getD Ref.nothing)
  else
    match dataResult (← Run.heap) op args with
    | .found r => return r
    | .made make => Run.making make
    | .changed target object =>
      Run.modifyHeap fun h => h.set target object
      return node
    | .dislikes culprit => raiseDoesntLike node culprit

end LogoEngine
