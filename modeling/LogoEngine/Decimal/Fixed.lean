import LogoEngine.Decimal.Shortest

/-!
# Fixed places

A double with a given number of places after the point, rounded on its exact value; a half goes
to the even neighbour. The sign is written whenever the double carries one.
-/

namespace LogoEngine.Decimal

/-- Digits with a point before the last `places` of them, and some zeros after them. -/
def withPlaces (places zeros n : Nat) : String :=
  let ds := digitsOf n
  let ds := List.replicate (places + 1 - ds.length) 0 ++ ds
  let whole := ds.take (ds.length - places)
  let fraction := ds.drop (ds.length - places) ++ List.replicate zeros 0
  String.ofList (whole.map digitChar) ++
    (if fraction.isEmpty then "" else "." ++ String.ofList (fraction.map digitChar))

/-- No double has more places than this. -/
def maxPlaces : Nat := 1074

/-- The text of a double with `places` places. -/
def fixed (x : Float) (places : Nat) : String :=
  match Binary.ofFloat x with
  | .notANumber => "NaN"
  | .infinite negative => if negative then "-inf" else "inf"
  | .finite negative mantissa exponent =>
    let (num, den) := ratio mantissa exponent
    let computed := min places maxPlaces
    (if negative then "-" else "") ++
      withPlaces computed (places - computed) (Tie.even.roundDiv (num * Nat.pow 10 computed) den)

/-- Puts blanks before a text until it is `width` characters wide. -/
def alignRight (width : Nat) (s : String) : String :=
  String.ofList (List.replicate (width - s.length) ' ') ++ s

end LogoEngine.Decimal
