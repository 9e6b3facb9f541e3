import LogoEngine.Heap.Basic

/-!
# Comparing values

Two words are equal if both read as numbers and the numbers are equal, or else if their keys are
equal; lists are compared element by element and arrays by identity. Comparison stops at a depth
of 1000, so that it also ends on structures with cycles.
-/

namespace LogoEngine.Heap

/-- The deepest nesting that is compared. -/
def maxCompareDepth : Nat := 1000

/-- Equality of words: by number if both have one, else by key. -/
def equalWords (v w : Word) : Bool :=
  match v.number?, w.number? with
  | some x, some y => x == y
  | _, _ => v.key == w.key

/-- Equality of values with `depth` more levels of nesting to compare. -/
def equalUpTo (h : Heap) : Nat → Ref → Ref → Bool
  | 0, _, _ => false
  | depth + 1, a, b =>
    match h.get a, h.get b with
    | .word v, .word w => equalWords v w
    | .list _, .list _ =>
      a == b ||
        (let xs := h.items a
         let ys := h.items b
         xs.length == ys.length && (xs.zip ys).all fun pair => equalUpTo h depth pair.1 pair.2)
    | .array _ _, .array _ _ => a == b
    | _, _ => false

/-- Equality of values. -/
def equal (h : Heap) (a b : Ref) : Bool :=
  h.equalUpTo (maxCompareDepth + 1) a b

/-- The elements of a list or an array. -/
def elements (h : Heap) (r : Ref) : List Ref :=
  match h.get r with
  | .list _ => h.items r
  | .array _ items => items.toList
  | _ => []

/-- Whether `needle` is a value or occurs inside it, with `depth` more levels to look into. -/
def containsUpTo (h : Heap) (needle : Ref) : Nat → Ref → Bool
  | 0, r => r == needle
  | depth + 1, r => r == needle || (h.elements r).any (containsUpTo h needle depth)

/-- Whether `needle` is a value or occurs anywhere inside it. -/
def contains (h : Heap) (r needle : Ref) : Bool :=
  h.containsUpTo needle (maxCompareDepth + 1) r

end LogoEngine.Heap
