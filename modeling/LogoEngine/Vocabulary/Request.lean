/-!
# Representations

What a node produces and what its consumer asks for: a number, a truth value, a value on the
heap, or no value at all. A consumer may accept two of these.
-/

namespace LogoEngine

/-- A representation, or one of the two pairs of representations that occur. -/
inductive Request where
  | nothing
  | truth
  | datum
  | real
  | datumOrNothing
  | datumOrTruth
deriving DecidableEq, Repr

namespace Request

/-- Every request. -/
def all : List Request :=
  [nothing, truth, datum, real, datumOrNothing, datumOrTruth]

/-- One bit for each representation that is allowed. -/
def bits : Request → Nat
  | nothing => 1
  | truth => 2
  | datum => 4
  | real => 8
  | datumOrNothing => 5
  | datumOrTruth => 6

/-- Whether every representation of `b` is allowed by `a`. -/
def contains (a b : Request) : Bool :=
  a.bits &&& b.bits == b.bits

/-- The short name. -/
def name : Request → String
  | nothing => "N"
  | truth => "B"
  | datum => "D"
  | real => "R"
  | datumOrNothing => "DN"
  | datumOrTruth => "DB"

end Request

end LogoEngine
