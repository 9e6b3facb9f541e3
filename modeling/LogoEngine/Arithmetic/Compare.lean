/-!
# Arithmetic and comparison of doubles

The four operations and the six comparisons compiled code performs on native numbers. All
comparisons are **ordered**: one that involves a value that is not a number is false, "not equal"
included.
-/

namespace LogoEngine

/-- The four operations on doubles. -/
inductive ArithOp where
  | add | sub | mul | div
deriving DecidableEq, Repr

/-- The name in listings. -/
def ArithOp.name : ArithOp → String
  | add => "Add"
  | sub => "Sub"
  | mul => "Mul"
  | div => "Div"

/-- The value of an operation. -/
def ArithOp.eval (op : ArithOp) (x y : Float) : Float :=
  match op with
  | add => x + y
  | sub => x - y
  | mul => x * y
  | div => x / y

/-- The six ordered comparisons. -/
inductive CompareOp where
  | eq | ne | lt | le | gt | ge
deriving DecidableEq, Repr

/-- The name in listings. -/
def CompareOp.name : CompareOp → String
  | eq => "Eq"
  | ne => "Ne"
  | lt => "Lt"
  | le => "Le"
  | gt => "Gt"
  | ge => "Ge"

/-- The value of a comparison. -/
def CompareOp.eval (op : CompareOp) (x y : Float) : Bool :=
  match op with
  | eq => x == y
  | ne => x < y || x > y
  | lt => x < y
  | le => x ≤ y
  | gt => x > y
  | ge => x ≥ y

end LogoEngine
