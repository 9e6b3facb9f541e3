/-!
# Rounding quotients

The integer nearest to a quotient of naturals. A number half-way between two integers has two
nearest ones; a `Tie` decides between them.
-/

namespace LogoEngine.Decimal

/-- Which of its neighbours a number half-way between two integers is rounded to. -/
inductive Tie where
  | up
  | even
deriving DecidableEq, Repr

/-- The neighbour of `floor + 1 / 2` that a tie picks. -/
def Tie.pick (tie : Tie) (floor : Nat) : Nat :=
  match tie with
  | up => floor + 1
  | even => floor + floor % 2

/-- The integer nearest to `num / den`. -/
def Tie.roundDiv (tie : Tie) (num den : Nat) : Nat :=
  let floor := num / den
  let twice := 2 * (num % den)
  if twice < den then floor
  else if den < twice then floor + 1
  else tie.pick floor

end LogoEngine.Decimal
