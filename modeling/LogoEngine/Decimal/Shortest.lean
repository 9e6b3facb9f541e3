import LogoEngine.Decimal.Binary
import LogoEngine.Decimal.Round

/-!
# Shortest decimals

The fewest decimal digits that read back as a given double and, among those, the nearest; a `Tie`
decides between two that are equally near. For `n = 1, 2, …` digits the two neighbours of the
value on the grid of `n`-digit decimals are tested against the interval of reals that round to the
double; the first grid with a hit wins. The ends of the interval belong to it exactly when the
mantissa is even.
-/

namespace LogoEngine.Decimal

/-- A positive decimal `0.d₁d₂… · 10 ^ point` with `digits = d₁d₂…`; `scientific` is the exponent
of its first digit. -/
structure Digits where
  digits : List Nat
  point : Int
deriving DecidableEq, Repr

/-- The exponent of the first digit: `1.5e-7` has exponent `-7`. -/
def Digits.scientific (d : Digits) : Int :=
  d.point - 1

/-- The decimal digits of a natural, most significant first. -/
def digitsOf (n : Nat) : List Nat :=
  (Nat.toDigits 10 n).map fun c => c.toNat - '0'.toNat

/-- A digit as a character. -/
def digitChar (d : Nat) : Char :=
  Char.ofNat ('0'.toNat + d)

/-- Removes the zeros at the end. -/
def dropTrailingZeros (ds : List Nat) : List Nat :=
  (ds.reverse.dropWhile (· == 0)).reverse

/-- How often `num / den`, below one, has to be multiplied by ten to reach one. -/
def leadingZeros (den : Nat) : Nat → Nat → Nat
  | 0, _ => 0
  | fuel + 1, num => if den ≤ num then 0 else leadingZeros den fuel (10 * num) + 1

/-- The exponent of the first digit of `num / den`. -/
def decimalExponent (num den : Nat) : Int :=
  if den ≤ num then ((Nat.toDigits 10 (num / den)).length : Int) - 1
  else -(leadingZeros den 400 num : Int)

/-- The interval of reals that round to a double, in quarters of its last place: from
`4m - below` to `4m + 2` times `2 ^ (exponent - 2)`. Below a power of two the doubles lie twice
as dense. -/
def roomBelow (mantissa : Nat) (exponent : Int) : Nat :=
  if mantissa == fullMantissa && exponent != minExponent then 1 else 2

/-- The candidate `c · 10 ^ unit` for `mantissa · 2 ^ exponent`, both sides brought to a common
denominator: whether it lies in the interval of reals that round to the double. -/
def hits (mantissa : Nat) (exponent unit : Int) (c : Nat) : Bool :=
  let candidate := 4 * c * Nat.pow 10 unit.toNat * Nat.pow 2 (-exponent).toNat
  let place := Nat.pow 10 (-unit).toNat * Nat.pow 2 exponent.toNat
  let low := (4 * mantissa - roomBelow mantissa exponent) * place
  let high := (4 * mantissa + 2) * place
  if mantissa % 2 == 0 then low ≤ candidate && candidate ≤ high
  else low < candidate && candidate < high

/-- The best candidate on one grid: a neighbour that hits, of two the nearer, of two equally near
the one that `tie` picks. -/
def gridChoice (tie : Tie) (mantissa : Nat) (exponent unit : Int) : Option Nat :=
  let (num, den) := ratio mantissa exponent
  let num := num * Nat.pow 10 (-unit).toNat
  let den := den * Nat.pow 10 unit.toNat
  let floor := num / den
  match hits mantissa exponent unit floor, hits mantissa exponent unit (floor + 1) with
  | true, true => some (tie.roundDiv num den)
  | true, false => some floor
  | false, true => some (floor + 1)
  | false, false => none

/-- Tries grids of more and more digits, starting with `count`. -/
def searchGrid (tie : Tie) (mantissa : Nat) (exponent first : Int) : Nat → Nat → Digits
  | 0, _ => ⟨[], 0⟩
  | fuel + 1, count =>
    match gridChoice tie mantissa exponent (first + 1 - count) with
    | some c =>
      let ds := digitsOf c
      ⟨dropTrailingZeros ds, (ds.length : Int) + (first + 1 - count)⟩
    | none => searchGrid tie mantissa exponent first fuel (count + 1)

/-- The shortest digits of a positive double `mantissa · 2 ^ exponent`. Seventeen digits always
suffice. -/
def shortest (tie : Tie) (mantissa : Nat) (exponent : Int) : Digits :=
  let (num, den) := ratio mantissa exponent
  searchGrid tie mantissa exponent (decimalExponent num den) 20 1

end LogoEngine.Decimal
