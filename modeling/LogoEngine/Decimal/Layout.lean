import LogoEngine.Decimal.Shortest

/-!
# Laying out a number

How the shortest digits of a double become text. What differs between the places that write
numbers is collected in one record, `Layout`; the laying out itself is shared.
-/

namespace LogoEngine.Decimal

/-- The decisions of one way to write numbers. -/
structure Layout where
  /-- Exponents of the first digit that are written without an exponent. -/
  isPositional : Int → Bool
  /-- What follows an integer written without exponent. -/
  integerSuffix : String
  /-- What stands before an exponent that is not negative. -/
  exponentPlus : String
  /-- The least number of exponent digits. -/
  exponentWidth : Nat
  /-- Whether a negative zero keeps its sign. -/
  signedZero : Bool
  /-- Which of two equally near decimals is written. -/
  tie : Tie

/-- The text of a list of digits. -/
def digitText (ds : List Nat) : String :=
  String.ofList (ds.map digitChar)

/-- Some zeros. -/
def zeros (count : Nat) : String :=
  String.ofList (List.replicate count '0')

/-- A natural with at least `width` digits. -/
def padded (width n : Nat) : String :=
  let ds := digitsOf n
  zeros (width - ds.length) ++ digitText ds

/-- Digits with a point and without exponent. -/
def Digits.positional (d : Digits) (integerSuffix : String) : String :=
  let count := d.digits.length
  if d.point ≤ 0 then "0." ++ zeros (-d.point).toNat ++ digitText d.digits
  else if count ≤ d.point.toNat then
    digitText d.digits ++ zeros (d.point.toNat - count) ++ integerSuffix
  else
    digitText (d.digits.take d.point.toNat) ++ "." ++ digitText (d.digits.drop d.point.toNat)

/-- Digits with a point after the first and an exponent. -/
def Digits.withExponent (d : Digits) (layout : Layout) : String :=
  let fraction := d.digits.drop 1
  let mantissa :=
    digitText (d.digits.take 1) ++ (if fraction.isEmpty then "" else "." ++ digitText fraction)
  let sign := if d.scientific < 0 then "-" else layout.exponentPlus
  mantissa ++ "e" ++ sign ++ padded layout.exponentWidth d.scientific.natAbs

/-- The text of a double. -/
def Layout.render (layout : Layout) (x : Float) : String :=
  match Binary.ofFloat x with
  | .notANumber => "NaN"
  | .infinite negative => if negative then "-inf" else "inf"
  | .finite negative mantissa exponent =>
    if mantissa == 0 then
      (if negative && layout.signedZero then "-0" else "0") ++ layout.integerSuffix
    else
      let d := shortest layout.tie mantissa exponent
      let magnitude :=
        if layout.isPositional d.scientific then d.positional layout.integerSuffix
        else d.withExponent layout
      (if negative then "-" else "") ++ magnitude

end LogoEngine.Decimal
