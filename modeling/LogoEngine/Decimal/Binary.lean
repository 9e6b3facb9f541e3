/-!
# Doubles as exact binary numbers

A finite double is `mantissa · 2 ^ exponent` with a sign. Everything that has to be exact about a
double (its digits, its integer part, its rounding to places) is computed from this form in
integer arithmetic.
-/

namespace LogoEngine.Decimal

/-- What a double stands for. -/
inductive Binary where
  | notANumber
  | infinite (negative : Bool)
  /-- The number `± mantissa · 2 ^ exponent`; both zeros have mantissa `0`. -/
  | finite (negative : Bool) (mantissa : Nat) (exponent : Int)
deriving DecidableEq, Repr

/-- The exponent of the least positive double. -/
def minExponent : Int := -1074

/-- The mantissa from which on a double has all its 53 bits. -/
def fullMantissa : Nat := Nat.pow 2 52

/-- Reads the fields of a double: one sign bit, eleven exponent bits, fifty-two fraction bits. -/
def Binary.ofFloat (x : Float) : Binary :=
  let bits := x.toBits.toNat
  let negative := bits / Nat.pow 2 63 == 1
  let exponent : Nat := bits / Nat.pow 2 52 % Nat.pow 2 11
  let fraction : Nat := bits % Nat.pow 2 52
  if exponent == 2047 then
    if fraction == 0 then .infinite negative else .notANumber
  else if exponent == 0 then .finite negative fraction minExponent
  else .finite negative (fullMantissa + fraction) (minExponent + (exponent : Int) - 1)

/-- Gives a magnitude its sign. -/
def signed (negative : Bool) (x : Float) : Float :=
  if negative then -x else x

/-- The magnitude of a finite double as a fraction of two naturals. -/
def ratio (mantissa : Nat) (exponent : Int) : Nat × Nat :=
  if 0 ≤ exponent then (mantissa * Nat.pow 2 exponent.toNat, 1)
  else (mantissa, Nat.pow 2 (-exponent).toNat)

/-- Drops the fraction of a double; the sign stays, also on a zero. -/
def truncate (x : Float) : Float :=
  match Binary.ofFloat x with
  | .finite negative mantissa exponent =>
    if 0 ≤ exponent then x
    else signed negative (Float.ofNat (mantissa / Nat.pow 2 (-exponent).toNat))
  | _ => x

/-- The nearest integral double; a half goes away from zero and the sign stays. -/
def roundHalfAway (x : Float) : Float :=
  match Binary.ofFloat x with
  | .finite negative mantissa exponent =>
    if 0 ≤ exponent then x
    else
      let unit := Nat.pow 2 (-exponent).toNat
      signed negative (Float.ofNat ((2 * mantissa + unit) / (2 * unit)))
  | _ => x

/-- The integer a double is, if it is one. -/
def toInt? (x : Float) : Option Int :=
  match Binary.ofFloat x with
  | .finite negative mantissa exponent =>
    let (num, den) := ratio mantissa exponent
    if num % den == 0 then
      some (if negative then -((num / den : Nat) : Int) else ((num / den : Nat) : Int))
    else none
  | _ => none

end LogoEngine.Decimal
