import LogoEngine.Decimal.Scaled
import LogoEngine.Json.Basic

/-!
# Reading JSON

A reader takes characters from the front and returns what it read and what it left. Blanks are
allowed around every token; containers nest at most 127 deep.
-/

namespace LogoEngine.Json

/-- Reads from the front of a text. -/
abbrev Reader (α : Type) := List Char → Option (α × List Char)

/-- The blanks between tokens. -/
def isBlank (c : Char) : Bool :=
  c == ' ' || c == '\n' || c == '\t' || c == '\r'

/-- Leaves out blanks. -/
def skipBlanks (cs : List Char) : List Char :=
  cs.dropWhile isBlank

/-- Reads a fixed word. -/
private def word (expected : String) (value : Json) : Reader Json := fun cs =>
  let chars := expected.toList
  if chars.isPrefixOf cs then some (value, cs.drop chars.length) else none

/-! ### Texts -/

/-- The value of a hexadecimal digit. -/
def hexValue? (c : Char) : Option Nat :=
  if c.isDigit then some (c.toNat - '0'.toNat)
  else if 'a' ≤ c ∧ c ≤ 'f' then some (c.toNat - 'a'.toNat + 10)
  else if 'A' ≤ c ∧ c ≤ 'F' then some (c.toNat - 'A'.toNat + 10)
  else none

/-- Reads four hexadecimal digits. -/
private def hexQuad : Reader Nat
  | a :: b :: c :: d :: rest => do
    let a ← hexValue? a
    let b ← hexValue? b
    let c ← hexValue? c
    let d ← hexValue? d
    some (((a * 16 + b) * 16 + c) * 16 + d, rest)
  | _ => none

/-- Reads the code point after `\u`. Code points beyond 16 bits are written as two halves, and a
half alone is refused. -/
private def unicodeEscape (cs : List Char) : Option (Char × List Char) := do
  let (high, rest) ← hexQuad cs
  if 0xD800 ≤ high ∧ high < 0xDC00 then
    match rest with
    | '\\' :: 'u' :: rest => do
      let (low, rest) ← hexQuad rest
      if 0xDC00 ≤ low ∧ low < 0xE000 then
        some (Char.ofNat (0x10000 + (high - 0xD800) * 0x400 + (low - 0xDC00)), rest)
      else none
    | _ => none
  else if 0xDC00 ≤ high ∧ high < 0xE000 then none
  else some (Char.ofNat high, rest)

/-- Reads what follows a backslash. -/
private def escape : Reader Char
  | '"' :: rest => some ('"', rest)
  | '\\' :: rest => some ('\\', rest)
  | '/' :: rest => some ('/', rest)
  | 'b' :: rest => some ('\x08', rest)
  | 'f' :: rest => some ('\x0c', rest)
  | 'n' :: rest => some ('\n', rest)
  | 'r' :: rest => some ('\r', rest)
  | 't' :: rest => some ('\t', rest)
  | 'u' :: rest => unicodeEscape rest
  | _ => none

/-- Reads the rest of a text up to its closing mark; `fuel` bounds the number of characters. -/
private def textRest : Nat → List Char → List Char → Option (String × List Char)
  | 0, _, _ => none
  | _, _, [] => none
  | fuel + 1, acc, c :: rest =>
    if c == '"' then some (String.ofList acc.reverse, rest)
    else if c == '\\' then
      match escape rest with
      | some (e, rest) => textRest fuel (e :: acc) rest
      | none => none
    else if c.toNat < 0x20 then none
    else textRest fuel (c :: acc) rest

/-- Reads a text after its opening mark. -/
def readText : Reader String := fun cs =>
  textRest (cs.length + 1) [] cs

/-! ### Numbers -/

/-- The digits of an integer: a zero, or digits that do not start with one. -/
private def integerDigits (cs : List Char) : Option (List Char × List Char) :=
  match Decimal.takeDigits cs with
  | ([], _) => none
  | ('0' :: _ :: _, _) => none
  | (digits, rest) => some (digits, rest)

/-- The digits after a point, if there is a point. -/
private def fractionDigits : List Char → Option (List Char × List Char)
  | '.' :: rest =>
    match Decimal.takeDigits rest with
    | ([], _) => none
    | (digits, rest) => some (digits, rest)
  | cs => some ([], cs)

/-- An exponent, if there is one. -/
private def exponent? : List Char → Option (Option Int × List Char)
  | c :: rest =>
    if c == 'e' || c == 'E' then
      let (negative, rest) := Decimal.takeSign rest
      match Decimal.takeDigits rest with
      | ([], _) => none
      | (digits, rest) =>
        let value : Int := Decimal.digitsValue digits
        some (some (if negative then -value else value), rest)
    else some (none, c :: rest)
  | [] => some (none, [])

/-- The integers of 64 bits lie below this. They bound the digits of a double too. -/
def integerLimit : Nat := Nat.pow 2 64

/-- A number of 64 bits if it was written as an integer and fits, else a double; one that is too
large for a double is refused. -/
private def numberOf (negative : Bool) (whole fraction : List Char) (exponent : Option Int) :
    Option JsonNumber :=
  let n := Decimal.digitsValue whole
  let double :=
    (Decimal.Numeral.leading integerLimit negative whole fraction (exponent.getD 0)).scaled?.map
      JsonNumber.real
  if !fraction.isEmpty || exponent.isSome then double
  else if negative then
    if 0 < n && n ≤ Nat.pow 2 63 then some (.negative n) else double
  else if n < integerLimit then some (.natural n)
  else double

/-- Reads a number. -/
def readNumber : Reader JsonNumber := fun cs => do
  let (negative, rest) :=
    match cs with
    | '-' :: rest => (true, rest)
    | cs => (false, cs)
  let (whole, rest) ← integerDigits rest
  let (fraction, rest) ← fractionDigits rest
  let (exponent, rest) ← exponent? rest
  let n ← numberOf negative whole fraction exponent
  some (n, rest)

/-! ### Containers -/

/-- Reads what is not a container. -/
private def scalar : Reader Json
  | 'n' :: rest => word "null" .null ('n' :: rest)
  | 't' :: rest => word "true" (.truth true) ('t' :: rest)
  | 'f' :: rest => word "false" (.truth false) ('f' :: rest)
  | '"' :: rest => (readText rest).map fun (s, rest) => (.text s, rest)
  | cs => (readNumber cs).map fun (n, rest) => (.number n, rest)

/-- Reads items with commas between them, up to `close`; the opening bracket and one item's
blanks are behind. `fuel` bounds the number of items. -/
private def itemsUntil {α : Type} (item : Reader α) (close : Char) : Nat → Reader (List α)
  | 0, _ => none
  | fuel + 1, cs => do
    let (first, rest) ← item cs
    match skipBlanks rest with
    | c :: rest =>
      if c == close then some ([first], rest)
      else if c == ',' then do
        let (others, rest) ← itemsUntil item close fuel (skipBlanks rest)
        some (first :: others, rest)
      else none
    | [] => none

/-- Reads the items of a container after its opening bracket. -/
private def container {α : Type} (item : Reader α) (close : Char) : Reader (List α) := fun cs =>
  match skipBlanks cs with
  | c :: rest =>
    if c == close then some ([], rest) else itemsUntil item close (cs.length + 1) (c :: rest)
  | [] => none

/-- Reads a member of an object. -/
private def member (value : Reader Json) : Reader (String × Json)
  | '"' :: rest => do
    let (name, rest) ← readText rest
    match skipBlanks rest with
    | ':' :: rest => do
      let (v, rest) ← value (skipBlanks rest)
      some ((name, v), rest)
    | _ => none
  | _ => none

/-- Puts a member in its place by name; one of the same name is replaced. -/
def insertMember (name : String) (value : Json) :
    List (String × Json) → List (String × Json)
  | [] => [(name, value)]
  | (n, v) :: rest =>
    if n = name then (name, value) :: rest
    else if name < n then (name, value) :: (n, v) :: rest
    else (n, v) :: insertMember name value rest

/-- The members of an object by name, of equal names the last. -/
def sortMembers (members : List (String × Json)) : List (String × Json) :=
  members.foldl (fun acc m => insertMember m.1 m.2 acc) []

/-- Reads a value with at most `depth` nested containers. -/
def readValue : Nat → Reader Json
  | _, [] => none
  | 0, c :: rest => if c == '[' || c == '\x7b' then none else scalar (c :: rest)
  | depth + 1, c :: rest =>
    if c == '[' then
      (container (readValue depth) ']' rest).map fun (items, rest) => (.array items, rest)
    else if c == '\x7b' then
      (container (member (readValue depth)) '\x7d' rest).map fun (members, rest) =>
        (.object (sortMembers members), rest)
    else scalar (c :: rest)

/-- The deepest nesting of containers. -/
def maxNesting : Nat := 127

/-- Reads a whole document. -/
def parse? (s : String) : Option Json := do
  let (value, rest) ← readValue maxNesting (skipBlanks s.toList)
  if (skipBlanks rest).isEmpty then some value else none

end LogoEngine.Json
