import LogoEngine.Code.Routine
import LogoEngine.Heap.Render

/-!
# Listings

Routines as text: a header, the constants, and each block with its instructions.
-/

namespace LogoEngine

/-- How listings spell numbers: always without exponent. -/
def listingLayout : Decimal.Layout where
  isPositional _ := true
  integerSuffix := ""
  exponentPlus := ""
  exponentWidth := 1
  signedZero := true
  tie := .up

/-- A register in a listing. -/
def Reg.text (r : Reg) : String :=
  s!"r{r.index}"

/-- A label in a listing. -/
def Label.text (l : Label) : String :=
  s!"bb{l.index}"

/-- A truth value in a listing. -/
def truthText (b : Bool) : String :=
  if b then "true" else "false"

/-- Registers in a listing, with commas. -/
def regsText (rs : List Reg) : String :=
  String.intercalate ", " (rs.map Reg.text)

/-- An instruction in a listing. -/
def Instr.text : Instr → String
  | real dst x => dst.text ++ " = f64 " ++ listingLayout.render x
  | truth dst b => dst.text ++ " = bool " ++ truthText b
  | const dst slot => dst.text ++ s!" = const #{slot}"
  | atBlock dst id => dst.text ++ s!" = block_id == {id}"
  | arith dst op lhs rhs => dst.text ++ " = " ++ op.name ++ " " ++ regsText [lhs, rhs]
  | neg dst src => dst.text ++ " = neg " ++ src.text
  | compare dst op lhs rhs => dst.text ++ " = cmp." ++ op.name ++ " " ++ regsText [lhs, rhs]
  | isInt dst src => dst.text ++ " = is_int " ++ src.text
  | not dst src => dst.text ++ " = not " ++ src.text
  | and dst lhs rhs => dst.text ++ " = and " ++ regsText [lhs, rhs]
  | move dst src => dst.text ++ " = " ++ src.text
  | call dst helper args =>
    (match dst with
      | some dst => dst.text ++ " = "
      | none => "") ++
    "call " ++ helper.name ++ "(" ++ regsText args ++ ")"

/-- The end of a block in a listing. -/
def Exit.text : Exit → String
  | ret value => "return " ++ value.text
  | jump target => "jump " ++ target.text
  | branch cond yes no => "branch " ++ cond.text ++ " ? " ++ yes.text ++ " : " ++ no.text
  | unreachable => "unreachable"

/-- The lines of a block. -/
def Block.listing (b : Block) : List String :=
  (b.label.text ++ ":") :: b.body.map (fun i => "    " ++ i.text) ++ ["    " ++ b.exit.text]

/-- The lines that name the constants from a slot on. -/
def constantLines (h : Heap) : Nat → List Ref → List String
  | _, [] => []
  | slot, r :: rest => (s!"  #{slot} = " ++ h.showForm r) :: constantLines h (slot + 1) rest

/-- The text of a routine. -/
def Routine.listing (code : Routine) (h : Heap) : String :=
  let lines :=
    (("fn " ++ code.name ++ " entry " ++ code.entry.text ++ ":") ::
      constantLines h 0 code.constants.toList) ++ code.blocks.flatMap Block.listing
  String.join (lines.map (· ++ "\n"))

end LogoEngine
