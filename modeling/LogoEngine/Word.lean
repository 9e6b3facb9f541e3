import LogoEngine.Decimal.Layout
import LogoEngine.Decimal.Numeral
import LogoEngine.Text.Case

/-!
# Words

A word is an atom. It always has a text; it may also read as a number or as a truth value. A word
made from a number keeps the exact double, so reading it gives the same bits back.
-/

namespace LogoEngine

/-- How words spell numbers: integers without a point, everything else with the fewest digits,
and an exponent below `1e-6` and from `1e21` on (`1e+300`, `1.5e-07`). The sign of a zero is not
written. -/
def wordLayout : Decimal.Layout where
  isPositional exponent := -6 ≤ exponent && exponent < 21
  integerSuffix := ""
  exponentPlus := "+"
  exponentWidth := 2
  signedZero := false
  tie := .up

/-- The text of a number. -/
def numberText (x : Float) : String :=
  wordLayout.render x

/-- An atom, by what it was made from. -/
inductive Word where
  | text (s : String)
  | number (x : Float)
  | truth (b : Bool)

namespace Word

/-- The text of a word. -/
def toText : Word → String
  | text s => s
  | number x => numberText x
  | truth b => if b then "true" else "false"

/-- The numeric reading. A truth value has none, whatever its text. -/
def number? : Word → Option Float
  | text s => Decimal.parse? s
  | number x => some x
  | truth _ => none

/-- The reading as a truth value: `true` or `false` in any case. A number has none. -/
def truth? : Word → Option Bool
  | text s =>
    if Text.eqIgnoringAsciiCase s "true" then some true
    else if Text.eqIgnoringAsciiCase s "false" then some false
    else none
  | number _ => none
  | truth b => some b

/-- The upper-case text, under which names, labels and tags are compared. -/
def key (w : Word) : String :=
  Text.upper w.toText

/-- Whether the text is empty. -/
def isEmpty (w : Word) : Bool :=
  w.toText.isEmpty

end Word

end LogoEngine
