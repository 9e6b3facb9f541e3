/-!
# Operations

The closed lists of what a primitive can do: operations on data, turtle commands, and the
**generators**, one for each way a node is turned into code.
-/

namespace LogoEngine

/-- Operations on words, lists and arrays. -/
inductive DataOp where
  | word | list | sentence | fput | lput | array | listToArray | arrayToList
  | first | last | butFirst | butLast | item | setItem | dotSetItem | dotSetFirst
  | dotSetBf | wordP | listP | arrayP | emptyP | equalP | notEqualP | beforeP
  | dotEq | memberP | substringP | numberP | count | ascii | char | member
  | lowercase | uppercase | thing
deriving DecidableEq, Repr

namespace DataOp

/-- Every operation. -/
def all : List DataOp :=
  [word, list, sentence, fput, lput, array, listToArray, arrayToList, first, last, butFirst,
    butLast, item, setItem, dotSetItem, dotSetFirst, dotSetBf, wordP, listP, arrayP, emptyP,
    equalP, notEqualP, beforeP, dotEq, memberP, substringP, numberP, count, ascii, char, member,
    lowercase, uppercase, thing]

/-- The name in listings. -/
def name : DataOp → String
  | word => "Word"
  | list => "List"
  | sentence => "Sentence"
  | fput => "Fput"
  | lput => "Lput"
  | array => "Array"
  | listToArray => "ListToArray"
  | arrayToList => "ArrayToList"
  | first => "First"
  | last => "Last"
  | butFirst => "ButFirst"
  | butLast => "ButLast"
  | item => "Item"
  | setItem => "SetItem"
  | dotSetItem => "DotSetItem"
  | dotSetFirst => "DotSetFirst"
  | dotSetBf => "DotSetBf"
  | wordP => "WordP"
  | listP => "ListP"
  | arrayP => "ArrayP"
  | emptyP => "EmptyP"
  | equalP => "EqualP"
  | notEqualP => "NotEqualP"
  | beforeP => "BeforeP"
  | dotEq => "DotEq"
  | memberP => "MemberP"
  | substringP => "SubstringP"
  | numberP => "NumberP"
  | count => "Count"
  | ascii => "Ascii"
  | char => "Char"
  | member => "Member"
  | lowercase => "Lowercase"
  | uppercase => "Uppercase"
  | thing => "Thing"

end DataOp

/-- Turtle commands. -/
inductive TurtleOp where
  | forward | back | left | right | setXY | setX | setY | setHeading
  | home | clearScreen | clean | penDown | penUp | showTurtle | hideTurtle
deriving DecidableEq, Repr

namespace TurtleOp

/-- Every command. -/
def all : List TurtleOp :=
  [forward, back, left, right, setXY, setX, setY, setHeading, home, clearScreen, clean, penDown,
    penUp, showTurtle, hideTurtle]

/-- The name in listings. -/
def name : TurtleOp → String
  | forward => "Forward"
  | back => "Back"
  | left => "Left"
  | right => "Right"
  | setXY => "SetXY"
  | setX => "SetX"
  | setY => "SetY"
  | setHeading => "SetHeading"
  | home => "Home"
  | clearScreen => "ClearScreen"
  | clean => "Clean"
  | penDown => "PenDown"
  | penUp => "PenUp"
  | showTurtle => "ShowTurtle"
  | hideTurtle => "HideTurtle"

/-- The number of numeric inputs. -/
def inputs : TurtleOp → Nat
  | setXY => 2
  | forward | back | left | right | setX | setY | setHeading => 1
  | _ => 0

end TurtleOp

/-- How a node is turned into code. -/
inductive Generator where
  | literal | valueOf | execProcedure | noOp | sum | product | difference | minus
  | quotient | remainder | modulo | sqrt | power | exp | log10 | ln
  | integerPart | round | sin | cos | radSin | radCos | arctan | radArctan
  | bitAnd | bitOr | bitXor | bitNot | ashift | lshift | random | rerandom
  | form | infixError | lessP | greaterP | lessEqualP | greaterEqualP | negation | conjunction
  | disjunction | run | runResult | repeatTimes | forever | repcount | ifTrueThen | ifElse
  | test | ifTrue | ifFalse | stop | output | maybeOutput | tag | goto
  | catching | throwing | lastError | pause | resume | bye | make | makeLocal
  | printing | showing | typing | setPos | pos | heading | towards | penDownP
  | shownP
  | data (op : DataOp)
  | turtle (op : TurtleOp)
deriving DecidableEq, Repr

namespace Generator

/-- The generators without a parameter. -/
def simple : List Generator :=
  [literal, valueOf, execProcedure, noOp, sum, product, difference, minus, quotient, remainder,
    modulo, sqrt, power, exp, log10, ln, integerPart, round, sin, cos, radSin, radCos, arctan,
    radArctan, bitAnd, bitOr, bitXor, bitNot, ashift, lshift, random, rerandom, form, infixError,
    lessP, greaterP, lessEqualP, greaterEqualP, negation, conjunction, disjunction, run,
    runResult, repeatTimes, forever, repcount, ifTrueThen, ifElse, test, ifTrue, ifFalse, stop,
    output, maybeOutput, tag, goto, catching, throwing, lastError, pause, resume, bye, make,
    makeLocal, printing, showing, typing, setPos, pos, heading, towards, penDownP, shownP]

/-- Every generator. -/
def all : List Generator :=
  simple ++ DataOp.all.map data ++ TurtleOp.all.map turtle

/-- The name in listings. -/
def name : Generator → String
  | literal => "Literal"
  | valueOf => "ValueOf"
  | execProcedure => "ExecProcedure"
  | noOp => "NoOp"
  | sum => "Sum"
  | product => "Product"
  | difference => "Difference"
  | minus => "Minus"
  | quotient => "Quotient"
  | remainder => "Remainder"
  | modulo => "Modulo"
  | sqrt => "Sqrt"
  | power => "Power"
  | exp => "Exp"
  | log10 => "Log10"
  | ln => "Ln"
  | integerPart => "Int"
  | round => "Round"
  | sin => "Sin"
  | cos => "Cos"
  | radSin => "RadSin"
  | radCos => "RadCos"
  | arctan => "Arctan"
  | radArctan => "RadArctan"
  | bitAnd => "BitAnd"
  | bitOr => "BitOr"
  | bitXor => "BitXor"
  | bitNot => "BitNot"
  | ashift => "Ashift"
  | lshift => "Lshift"
  | random => "Random"
  | rerandom => "Rerandom"
  | form => "Form"
  | infixError => "InfixError"
  | lessP => "LessP"
  | greaterP => "GreaterP"
  | lessEqualP => "LessEqualP"
  | greaterEqualP => "GreaterEqualP"
  | negation => "Not"
  | conjunction => "And"
  | disjunction => "Or"
  | run => "Run"
  | runResult => "RunResult"
  | repeatTimes => "Repeat"
  | forever => "Forever"
  | repcount => "Repcount"
  | ifTrueThen => "If"
  | ifElse => "IfElse"
  | test => "Test"
  | ifTrue => "IfTrue"
  | ifFalse => "IfFalse"
  | stop => "Stop"
  | output => "Output"
  | maybeOutput => "MaybeOutput"
  | tag => "Tag"
  | goto => "Goto"
  | catching => "Catch"
  | throwing => "Throw"
  | lastError => "Error"
  | pause => "Pause"
  | resume => "Continue"
  | bye => "Bye"
  | make => "Make"
  | makeLocal => "Local"
  | printing => "Print"
  | showing => "Show"
  | typing => "Type"
  | setPos => "SetPos"
  | pos => "Pos"
  | heading => "Heading"
  | towards => "Towards"
  | penDownP => "PenDownP"
  | shownP => "ShownP"
  | data op => "Data(" ++ op.name ++ ")"
  | turtle op => "Turtle(" ++ op.name ++ ")"

end Generator

end LogoEngine
