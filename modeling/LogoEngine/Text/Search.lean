/-!
# Searching and replacing

Occurrences of one text inside another, on lists of characters. `replaceAll` works from left to
right and never looks inside a text it has just put in; the empty pattern is not used.
-/

namespace LogoEngine.Text

/-- Whether `pattern` occurs in a text as consecutive characters. -/
def occursIn (pattern : List Char) : List Char → Bool
  | [] => pattern.isEmpty
  | c :: rest => pattern.isPrefixOf (c :: rest) || occursIn pattern rest

/-- Replaces every occurrence of a pattern, where `skip` more characters belong to the occurrence
that was replaced last. -/
def replaceFrom (pattern replacement : List Char) : Nat → List Char → List Char
  | _, [] => []
  | skip + 1, _ :: rest => replaceFrom pattern replacement skip rest
  | 0, c :: rest =>
    if pattern.isPrefixOf (c :: rest) then
      replacement ++ replaceFrom pattern replacement (pattern.length - 1) rest
    else c :: replaceFrom pattern replacement 0 rest

/-- Replaces every occurrence of `pattern`, from left to right and without overlaps. -/
def replaceAll (pattern replacement text : List Char) : List Char :=
  replaceFrom pattern replacement 0 text

/-- Whether the text `pattern` occurs in `s`. -/
def contains (s pattern : String) : Bool :=
  occursIn pattern.toList s.toList

end LogoEngine.Text
