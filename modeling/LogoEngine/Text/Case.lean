import LogoEngine.Text.CaseTable

/-!
# Upper and lower case

Case mapping of whole texts. A letter may turn into several characters (`ß` becomes `SS`), and
the lower case of a capital sigma depends on its neighbours: it is `ς` at the end of a word and
`σ` elsewhere. The upper-case text of a word is its **key**, under which names, labels and catch
tags are compared.
-/

namespace LogoEngine.Text

/-- The characters with the given code points. -/
def ofCodes (codes : List Nat) : List Char :=
  codes.map Char.ofNat

/-- The other case of a character that is not ASCII: its expansion if it has one, its letter
from the runs otherwise, and itself if it has no other case. -/
def mapChar (expansions : Array (Nat × List Nat)) (runs : Array CaseRun) (c : Char) :
    List Char :=
  match expansions.find? (fun entry => entry.1 == c.toNat) with
  | some entry => ofCodes entry.2
  | none =>
    match runs.find? (fun run => run.covers c.toNat) with
    | some run => [Char.ofNat ((c.toNat : Int) + run.shift).toNat]
    | none => [c]

/-- The upper case of one character. -/
def upperChar (c : Char) : List Char :=
  if c.toNat < 0x80 then [c.toUpper] else mapChar upperExpansions upperRuns c

/-- The lower case of one character, its neighbours aside. -/
def lowerChar (c : Char) : List Char :=
  if c.toNat < 0x80 then [c.toLower] else mapChar lowerExpansions lowerRuns c

/-- The upper case of a text. -/
def upper (s : String) : String :=
  String.ofList (s.toList.flatMap upperChar)

/-- Whether a character lies in one of the ranges. -/
def inRanges (ranges : Array (Nat × Nat)) (c : Char) : Bool :=
  ranges.any fun range => range.1 ≤ c.toNat && c.toNat ≤ range.2

/-- Characters that have or are a case. -/
def isCased (c : Char) : Bool :=
  inRanges casedRanges c

/-- Characters that are skipped when the neighbours of a sigma are looked at. -/
def isCaseIgnorable (c : Char) : Bool :=
  inRanges caseIgnorableRanges c

/-- Whether the first character that is not skipped has a case. -/
def startsCased (cs : List Char) : Bool :=
  ((cs.dropWhile isCaseIgnorable).head?.map isCased).getD false

/-- Lower case of the characters after `before`, which is given backwards. A capital sigma ends
a word when letters precede it and none follow. -/
def lowerAfter (before : List Char) : List Char → List Char
  | [] => []
  | c :: rest =>
    let mapped :=
      if c = 'Σ' then [if startsCased before && !startsCased rest then 'ς' else 'σ']
      else lowerChar c
    mapped ++ lowerAfter (c :: before) rest

/-- The lower case of a text. -/
def lower (s : String) : String :=
  String.ofList (lowerAfter [] s.toList)

/-- Equality that ignores the case of ASCII letters only. -/
def eqIgnoringAsciiCase (s t : String) : Bool :=
  s.toList.map Char.toLower == t.toList.map Char.toLower

end LogoEngine.Text
