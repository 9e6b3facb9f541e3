import LogoEngine.Decimal.Layout
import LogoEngine.Text.Quoted

/-!
# JSON values

The values a configuration document can hold, and their compact text. Objects list their members
by name, and of members with one name only the last counts.
-/

namespace LogoEngine

/-- A number, as it was written: an integer of 64 bits, or a double. -/
inductive JsonNumber where
  | natural (n : Nat)
  | negative (n : Nat)
  | real (x : Float)

/-- A JSON value. -/
inductive Json where
  | null
  | truth (b : Bool)
  | number (n : JsonNumber)
  | text (s : String)
  | array (items : List Json)
  | object (members : List (String × Json))

/-- How documents spell doubles: with a point or an exponent, so that they read as doubles, and
with an exponent below `1e-5` and from `1e+16` on. -/
def jsonLayout : Decimal.Layout where
  isPositional exponent := -5 ≤ exponent && exponent ≤ 15
  integerSuffix := ".0"
  exponentPlus := "+"
  exponentWidth := 1
  signedZero := true
  tie := .even

/-- The text of a number. -/
def JsonNumber.render : JsonNumber → String
  | natural n => toString n
  | negative n => "-" ++ toString n
  | real x => jsonLayout.render x

namespace Json

/-- A character of a JSON text. -/
private def escapeChar (c : Char) : List Char :=
  match c with
  | '"' => ['\\', '"']
  | '\\' => ['\\', '\\']
  | '\n' => ['\\', 'n']
  | '\r' => ['\\', 'r']
  | '\t' => ['\\', 't']
  | '\x08' => ['\\', 'b']
  | '\x0c' => ['\\', 'f']
  | c =>
    if c.toNat < 0x20 then
      let digits := Text.hexDigits c.toNat
      ['\\', 'u'] ++ List.replicate (4 - digits.length) '0' ++ digits
    else [c]

/-- A JSON text. -/
private def renderText (s : String) : String :=
  String.ofList ('"' :: s.toList.flatMap escapeChar ++ ['"'])

mutual

/-- The compact text of a value. -/
def render : Json → String
  | null => "null"
  | truth b => if b then "true" else "false"
  | number n => n.render
  | text s => renderText s
  | array items => "[" ++ String.intercalate "," (renderItems items) ++ "]"
  | object members => "\x7b" ++ String.intercalate "," (renderMembers members) ++ "\x7d"

/-- The texts of several values. -/
def renderItems : List Json → List String
  | [] => []
  | item :: rest => item.render :: renderItems rest

/-- The texts of the members of an object. -/
def renderMembers : List (String × Json) → List String
  | [] => []
  | (name, value) :: rest => (renderText name ++ ":" ++ value.render) :: renderMembers rest

end

end Json

end LogoEngine
