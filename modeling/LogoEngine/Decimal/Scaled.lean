import LogoEngine.Decimal.Numeral

/-!
# Reading decimals with a bounded number of digits

A second way to read a decimal, which looks at its **leading** digits only and rounds twice: the
digits that stay below a limit become a double, and that double is multiplied or divided by a
power of ten. The result can differ in its last place from the double nearest to the decimal,
which `Numeral.toFloat` gives, and a decimal beyond the largest double is refused.

* `appendBelow`: how many digits are looked at.
* `Numeral.leading`: the numeral they make.
* `Numeral.scaled?`: its double.
-/

namespace LogoEngine.Decimal

/-! ### Leading digits -/

/-- Appends digits to a number as long as it stays below `limit`: the number they make, and the
digits from the first one on that does not fit. -/
def appendBelow (limit n : Nat) : List Char → Nat × List Char
  | [] => (n, [])
  | c :: rest =>
    let longer := 10 * n + (c.toNat - '0'.toNat)
    if longer < limit then appendBelow limit longer rest else (n, c :: rest)

/-- The numeral that the leading digits make. Of the digits that do not fit, those before the
point only keep their places, and those after it are left out. -/
def Numeral.leading (limit : Nat) (negative : Bool) (whole fraction : List Char)
    (exponent : Int) : Numeral :=
  let (n, lostPlaces) := appendBelow limit 0 whole
  let (n, unread) := appendBelow limit n fraction
  ⟨negative, n, exponent + lostPlaces.length - (fraction.length - unread.length : Nat)⟩

/-! ### Scaling -/

/-- The largest power of ten that is a double. -/
def maxPower : Nat := 308

/-- A power of ten up to `maxPower`. -/
def powerOfTen (k : Nat) : Float :=
  Float.ofScientific 1 false k

/-- Divides a double by `10 ^ k`, at most `10 ^ maxPower` at a time. -/
def divideByPower (x : Float) (k : Nat) : Float :=
  if k ≤ maxPower then x / powerOfTen k
  else if x == 0.0 then x
  else divideByPower (x / powerOfTen maxPower) (k - maxPower)
termination_by k
decreasing_by simp only [maxPower] at *; omega

/-- Multiplies a double by `10 ^ k`, unless the product is too large for a double. -/
def multiplyByPower? (x : Float) (k : Nat) : Option Float :=
  if k ≤ maxPower then
    let product := x * powerOfTen k
    if product.isFinite then some product else none
  else if x == 0.0 then some x
  else none

/-- The double of a numeral's digits, scaled. -/
def Numeral.scaled? (n : Numeral) : Option Float :=
  let digits := Float.ofScientific n.digits false 0
  let magnitude? :=
    if 0 ≤ n.scale then multiplyByPower? digits n.scale.toNat
    else some (divideByPower digits (-n.scale).toNat)
  magnitude?.map (signed n.negative)

end LogoEngine.Decimal
