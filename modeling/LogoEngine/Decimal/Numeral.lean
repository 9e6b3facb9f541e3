import LogoEngine.Decimal.Binary

/-!
# Reading decimals

A **numeral** is an optional sign, digits with at most one point among, before or after them and
at least one digit, and optionally an exponent: `e` or `E`, an optional sign and digits. Reading
splits off one part after the other; every part returns the characters it leaves.
-/

namespace LogoEngine.Decimal

/-- The number `± digits · 10 ^ scale`. -/
structure Numeral where
  negative : Bool
  digits : Nat
  scale : Int
deriving DecidableEq, Repr

/-- An optional sign: whether it is a minus, and the rest. -/
def takeSign : List Char → Bool × List Char
  | '-' :: rest => (true, rest)
  | '+' :: rest => (false, rest)
  | cs => (false, cs)

/-- The value of a run of digits. -/
def digitsValue (cs : List Char) : Nat :=
  cs.foldl (fun n c => 10 * n + (c.toNat - '0'.toNat)) 0

/-- The digits at the front, and the rest. -/
def takeDigits (cs : List Char) : List Char × List Char :=
  (cs.takeWhile Char.isDigit, cs.dropWhile Char.isDigit)

/-- Digits with at most one point: those before it, those after it, and the rest. -/
def takeMantissa (cs : List Char) : List Char × List Char × List Char :=
  let (whole, rest) := takeDigits cs
  match rest with
  | '.' :: rest =>
    let (fraction, rest) := takeDigits rest
    (whole, fraction, rest)
  | rest => (whole, [], rest)

/-- What follows the mantissa: nothing, or an exponent that ends the text. -/
def readExponent : List Char → Option Int
  | [] => some 0
  | c :: rest =>
    if c == 'e' || c == 'E' then
      let (negative, rest) := takeSign rest
      let (digits, rest) := takeDigits rest
      if digits.isEmpty || !rest.isEmpty then none
      else
        let value : Int := digitsValue digits
        some (if negative then -value else value)
    else none

/-- Reads a whole text as a numeral. -/
def Numeral.parse? (cs : List Char) : Option Numeral :=
  let (negative, rest) := takeSign cs
  let (whole, fraction, rest) := takeMantissa rest
  if whole.isEmpty && fraction.isEmpty then none
  else
    (readExponent rest).map fun exponent =>
      ⟨negative, digitsValue (whole ++ fraction), exponent - fraction.length⟩

/-- Decimals of `10 ^ scaleLimit` and more are infinite as doubles, and those below
`10 ^ -scaleLimit` are zero. -/
def scaleLimit : Int := 400

/-- A power of ten that a positive numeral reaches, since `10 ^ 3 ≤ 2 ^ 10`. -/
def Numeral.leastExponent (n : Numeral) : Int :=
  ((n.digits.log2 * 3 / 10 : Nat) : Int) + n.scale

/-- A power of ten that a numeral does not reach, since `2 ^ 13 ≤ 10 ^ 4`. -/
def Numeral.limitExponent (n : Numeral) : Int :=
  (((n.digits.log2 + 1) * 4 / 13 + 1 : Nat) : Int) + n.scale

/-- Positive infinity. -/
def infinity : Float := 1.0 / 0.0

/-- The double nearest to a numeral. -/
def Numeral.toFloat (n : Numeral) : Float :=
  let magnitude : Float :=
    if n.digits == 0 then 0.0
    else if scaleLimit ≤ n.leastExponent then infinity
    else if n.limitExponent ≤ -scaleLimit then 0.0
    else if 0 ≤ n.scale then Float.ofScientific n.digits false n.scale.toNat
    else Float.ofScientific n.digits true (-n.scale).toNat
  signed n.negative magnitude

/-- Reads a text as a double. -/
def parse? (s : String) : Option Float :=
  (Numeral.parse? s.toList).map Numeral.toFloat

end LogoEngine.Decimal
