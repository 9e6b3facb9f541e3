import LogoEngine.Text.Case
import LogoEngine.Vocabulary.Operation
import LogoEngine.Vocabulary.Request

/-!
# The primitives

One row per primitive name: its generator, how many inputs it takes, and what it produces. Names
are found in any case.
-/

namespace LogoEngine

/-- A row of the table. -/
structure Primitive where
  name : String
  generator : Generator
  minInputs : Nat
  /-- How many inputs a call without parentheses takes. -/
  defaultInputs : Nat
  /-- The most inputs a call may have; `none` if there is no limit. -/
  maxInputs : Option Nat
  returns : Request
deriving DecidableEq, Repr

namespace Primitive

/-- The primitives, in table order. -/
def table : List Primitive := [
  ⟨"SUM", .sum, 0, 2, none, .real⟩,
  ⟨"PRODUCT", .product, 0, 2, none, .real⟩,
  ⟨"DIFFERENCE", .difference, 2, 2, some 2, .real⟩,
  ⟨"MINUS", .minus, 1, 1, some 1, .real⟩,
  ⟨"-", .minus, 1, 1, some 1, .real⟩,
  ⟨"QUOTIENT", .quotient, 1, 2, some 2, .real⟩,
  ⟨"REMAINDER", .remainder, 2, 2, some 2, .real⟩,
  ⟨"MODULO", .modulo, 2, 2, some 2, .real⟩,
  ⟨"SQRT", .sqrt, 1, 1, some 1, .real⟩,
  ⟨"POWER", .power, 2, 2, some 2, .real⟩,
  ⟨"EXP", .exp, 1, 1, some 1, .real⟩,
  ⟨"LOG10", .log10, 1, 1, some 1, .real⟩,
  ⟨"LN", .ln, 1, 1, some 1, .real⟩,
  ⟨"INT", .integerPart, 1, 1, some 1, .real⟩,
  ⟨"ROUND", .round, 1, 1, some 1, .real⟩,
  ⟨"SIN", .sin, 1, 1, some 1, .real⟩,
  ⟨"COS", .cos, 1, 1, some 1, .real⟩,
  ⟨"RADSIN", .radSin, 1, 1, some 1, .real⟩,
  ⟨"RADCOS", .radCos, 1, 1, some 1, .real⟩,
  ⟨"ARCTAN", .arctan, 1, 1, some 2, .real⟩,
  ⟨"RADARCTAN", .radArctan, 1, 1, some 2, .real⟩,
  ⟨"BITAND", .bitAnd, 0, 2, none, .real⟩,
  ⟨"BITOR", .bitOr, 0, 2, none, .real⟩,
  ⟨"BITXOR", .bitXor, 0, 2, none, .real⟩,
  ⟨"BITNOT", .bitNot, 1, 1, some 1, .real⟩,
  ⟨"ASHIFT", .ashift, 2, 2, some 2, .real⟩,
  ⟨"LSHIFT", .lshift, 2, 2, some 2, .real⟩,
  ⟨"RANDOM", .random, 1, 1, some 2, .real⟩,
  ⟨"RERANDOM", .rerandom, 0, 0, some 1, .nothing⟩,
  ⟨"FORM", .form, 3, 3, some 3, .datum⟩,
  ⟨"+", .infixError, 1, 1, some 1, .datum⟩,
  ⟨"*", .infixError, 1, 1, some 1, .datum⟩,
  ⟨"/", .infixError, 1, 1, some 1, .datum⟩,
  ⟨"<", .infixError, 1, 1, some 1, .datum⟩,
  ⟨">", .infixError, 1, 1, some 1, .datum⟩,
  ⟨"=", .infixError, 1, 1, some 1, .datum⟩,
  ⟨"<=", .infixError, 1, 1, some 1, .datum⟩,
  ⟨">=", .infixError, 1, 1, some 1, .datum⟩,
  ⟨"<>", .infixError, 1, 1, some 1, .datum⟩,
  ⟨"LESSP", .lessP, 2, 2, some 2, .truth⟩,
  ⟨"LESS?", .lessP, 2, 2, some 2, .truth⟩,
  ⟨"GREATERP", .greaterP, 2, 2, some 2, .truth⟩,
  ⟨"GREATER?", .greaterP, 2, 2, some 2, .truth⟩,
  ⟨"LESSEQUALP", .lessEqualP, 2, 2, some 2, .truth⟩,
  ⟨"LESSEQUAL?", .lessEqualP, 2, 2, some 2, .truth⟩,
  ⟨"GREATEREQUALP", .greaterEqualP, 2, 2, some 2, .truth⟩,
  ⟨"GREATEREQUAL?", .greaterEqualP, 2, 2, some 2, .truth⟩,
  ⟨"NOT", .negation, 1, 1, some 1, .truth⟩,
  ⟨"AND", .conjunction, 0, 2, none, .truth⟩,
  ⟨"OR", .disjunction, 0, 2, none, .truth⟩,
  ⟨"RUN", .run, 1, 1, some 1, .datumOrNothing⟩,
  ⟨"RUNRESULT", .runResult, 1, 1, some 1, .datum⟩,
  ⟨"REPEAT", .repeatTimes, 2, 2, some 2, .datumOrNothing⟩,
  ⟨"FOREVER", .forever, 1, 1, some 1, .nothing⟩,
  ⟨"REPCOUNT", .repcount, 0, 0, some 0, .real⟩,
  ⟨"IF", .ifTrueThen, 2, 2, some 3, .datumOrNothing⟩,
  ⟨"IFELSE", .ifElse, 3, 3, some 3, .datumOrNothing⟩,
  ⟨"TEST", .test, 1, 1, some 1, .nothing⟩,
  ⟨"IFTRUE", .ifTrue, 1, 1, some 1, .datumOrNothing⟩,
  ⟨"IFT", .ifTrue, 1, 1, some 1, .datumOrNothing⟩,
  ⟨"IFFALSE", .ifFalse, 1, 1, some 1, .datumOrNothing⟩,
  ⟨"IFF", .ifFalse, 1, 1, some 1, .datumOrNothing⟩,
  ⟨"STOP", .stop, 0, 0, some 1, .nothing⟩,
  ⟨"OUTPUT", .output, 1, 1, some 1, .nothing⟩,
  ⟨"OP", .output, 1, 1, some 1, .nothing⟩,
  ⟨".MAYBEOUTPUT", .maybeOutput, 1, 1, some 1, .nothing⟩,
  ⟨"TAG", .tag, 1, 1, some 1, .nothing⟩,
  ⟨"GOTO", .goto, 1, 1, some 1, .nothing⟩,
  ⟨"CATCH", .catching, 2, 2, some 2, .datumOrNothing⟩,
  ⟨"THROW", .throwing, 1, 1, some 2, .nothing⟩,
  ⟨"ERROR", .lastError, 0, 0, some 0, .datum⟩,
  ⟨"PAUSE", .pause, 0, 0, some 0, .datumOrNothing⟩,
  ⟨"CONTINUE", .resume, 0, 0, some 1, .datumOrNothing⟩,
  ⟨"CO", .resume, 0, 0, some 1, .datumOrNothing⟩,
  ⟨"BYE", .bye, 0, 0, some 0, .nothing⟩,
  ⟨"WORD", (.data .word), 0, 2, none, .datum⟩,
  ⟨"LIST", (.data .list), 0, 2, none, .datum⟩,
  ⟨"SENTENCE", (.data .sentence), 0, 2, none, .datum⟩,
  ⟨"SE", (.data .sentence), 0, 2, none, .datum⟩,
  ⟨"FPUT", (.data .fput), 2, 2, some 2, .datum⟩,
  ⟨"LPUT", (.data .lput), 2, 2, some 2, .datum⟩,
  ⟨"ARRAY", (.data .array), 1, 1, some 2, .datum⟩,
  ⟨"LISTTOARRAY", (.data .listToArray), 1, 1, some 2, .datum⟩,
  ⟨"ARRAYTOLIST", (.data .arrayToList), 1, 1, some 1, .datum⟩,
  ⟨"FIRST", (.data .first), 1, 1, some 1, .datum⟩,
  ⟨"LAST", (.data .last), 1, 1, some 1, .datum⟩,
  ⟨"BUTFIRST", (.data .butFirst), 1, 1, some 1, .datum⟩,
  ⟨"BF", (.data .butFirst), 1, 1, some 1, .datum⟩,
  ⟨"BUTLAST", (.data .butLast), 1, 1, some 1, .datum⟩,
  ⟨"BL", (.data .butLast), 1, 1, some 1, .datum⟩,
  ⟨"ITEM", (.data .item), 2, 2, some 2, .datum⟩,
  ⟨"SETITEM", (.data .setItem), 3, 3, some 3, .nothing⟩,
  ⟨".SETITEM", (.data .dotSetItem), 3, 3, some 3, .nothing⟩,
  ⟨".SETFIRST", (.data .dotSetFirst), 2, 2, some 2, .nothing⟩,
  ⟨".SETBF", (.data .dotSetBf), 2, 2, some 2, .nothing⟩,
  ⟨"WORDP", (.data .wordP), 1, 1, some 1, .datum⟩,
  ⟨"WORD?", (.data .wordP), 1, 1, some 1, .datum⟩,
  ⟨"LISTP", (.data .listP), 1, 1, some 1, .datum⟩,
  ⟨"LIST?", (.data .listP), 1, 1, some 1, .datum⟩,
  ⟨"ARRAYP", (.data .arrayP), 1, 1, some 1, .datum⟩,
  ⟨"ARRAY?", (.data .arrayP), 1, 1, some 1, .datum⟩,
  ⟨"EMPTYP", (.data .emptyP), 1, 1, some 1, .datum⟩,
  ⟨"EMPTY?", (.data .emptyP), 1, 1, some 1, .datum⟩,
  ⟨"EQUALP", (.data .equalP), 2, 2, some 2, .datum⟩,
  ⟨"EQUAL?", (.data .equalP), 2, 2, some 2, .datum⟩,
  ⟨"NOTEQUALP", (.data .notEqualP), 2, 2, some 2, .datum⟩,
  ⟨"NOTEQUAL?", (.data .notEqualP), 2, 2, some 2, .datum⟩,
  ⟨"BEFOREP", (.data .beforeP), 2, 2, some 2, .datum⟩,
  ⟨"BEFORE?", (.data .beforeP), 2, 2, some 2, .datum⟩,
  ⟨".EQ", (.data .dotEq), 2, 2, some 2, .datum⟩,
  ⟨"MEMBERP", (.data .memberP), 2, 2, some 2, .datum⟩,
  ⟨"MEMBER?", (.data .memberP), 2, 2, some 2, .datum⟩,
  ⟨"SUBSTRINGP", (.data .substringP), 2, 2, some 2, .datum⟩,
  ⟨"SUBSTRING?", (.data .substringP), 2, 2, some 2, .datum⟩,
  ⟨"NUMBERP", (.data .numberP), 1, 1, some 1, .datum⟩,
  ⟨"NUMBER?", (.data .numberP), 1, 1, some 1, .datum⟩,
  ⟨"COUNT", (.data .count), 1, 1, some 1, .datum⟩,
  ⟨"ASCII", (.data .ascii), 1, 1, some 1, .datum⟩,
  ⟨"CHAR", (.data .char), 1, 1, some 1, .datum⟩,
  ⟨"MEMBER", (.data .member), 2, 2, some 2, .datum⟩,
  ⟨"LOWERCASE", (.data .lowercase), 1, 1, some 1, .datum⟩,
  ⟨"UPPERCASE", (.data .uppercase), 1, 1, some 1, .datum⟩,
  ⟨"THING", (.data .thing), 1, 1, some 1, .datum⟩,
  ⟨"MAKE", .make, 2, 2, some 2, .nothing⟩,
  ⟨"LOCAL", .makeLocal, 1, 1, none, .nothing⟩,
  ⟨"PRINT", .printing, 0, 1, none, .nothing⟩,
  ⟨"PR", .printing, 0, 1, none, .nothing⟩,
  ⟨"SHOW", .showing, 0, 1, none, .nothing⟩,
  ⟨"TYPE", .typing, 0, 1, none, .nothing⟩,
  ⟨"FORWARD", (.turtle .forward), 1, 1, some 1, .nothing⟩,
  ⟨"FD", (.turtle .forward), 1, 1, some 1, .nothing⟩,
  ⟨"BACK", (.turtle .back), 1, 1, some 1, .nothing⟩,
  ⟨"BK", (.turtle .back), 1, 1, some 1, .nothing⟩,
  ⟨"LEFT", (.turtle .left), 1, 1, some 1, .nothing⟩,
  ⟨"LT", (.turtle .left), 1, 1, some 1, .nothing⟩,
  ⟨"RIGHT", (.turtle .right), 1, 1, some 1, .nothing⟩,
  ⟨"RT", (.turtle .right), 1, 1, some 1, .nothing⟩,
  ⟨"SETXY", (.turtle .setXY), 2, 2, some 2, .nothing⟩,
  ⟨"SETX", (.turtle .setX), 1, 1, some 1, .nothing⟩,
  ⟨"SETY", (.turtle .setY), 1, 1, some 1, .nothing⟩,
  ⟨"SETHEADING", (.turtle .setHeading), 1, 1, some 1, .nothing⟩,
  ⟨"SETH", (.turtle .setHeading), 1, 1, some 1, .nothing⟩,
  ⟨"HOME", (.turtle .home), 0, 0, some 0, .nothing⟩,
  ⟨"CLEARSCREEN", (.turtle .clearScreen), 0, 0, some 0, .nothing⟩,
  ⟨"CS", (.turtle .clearScreen), 0, 0, some 0, .nothing⟩,
  ⟨"CLEAN", (.turtle .clean), 0, 0, some 0, .nothing⟩,
  ⟨"PENDOWN", (.turtle .penDown), 0, 0, some 0, .nothing⟩,
  ⟨"PD", (.turtle .penDown), 0, 0, some 0, .nothing⟩,
  ⟨"PENUP", (.turtle .penUp), 0, 0, some 0, .nothing⟩,
  ⟨"PU", (.turtle .penUp), 0, 0, some 0, .nothing⟩,
  ⟨"SHOWTURTLE", (.turtle .showTurtle), 0, 0, some 0, .nothing⟩,
  ⟨"ST", (.turtle .showTurtle), 0, 0, some 0, .nothing⟩,
  ⟨"HIDETURTLE", (.turtle .hideTurtle), 0, 0, some 0, .nothing⟩,
  ⟨"HT", (.turtle .hideTurtle), 0, 0, some 0, .nothing⟩,
  ⟨"SETPOS", .setPos, 1, 1, some 1, .nothing⟩,
  ⟨"POS", .pos, 0, 0, some 0, .datum⟩,
  ⟨"HEADING", .heading, 0, 0, some 0, .real⟩,
  ⟨"TOWARDS", .towards, 1, 1, some 1, .datum⟩,
  ⟨"PENDOWNP", .penDownP, 0, 0, some 0, .truth⟩,
  ⟨"PENDOWN?", .penDownP, 0, 0, some 0, .truth⟩,
  ⟨"SHOWNP", .shownP, 0, 0, some 0, .truth⟩,
  ⟨"SHOWN?", .shownP, 0, 0, some 0, .truth⟩]

/-- The primitive of the given name, in any case. -/
def find? (name : String) : Option Primitive :=
  let key := Text.upper name
  table.find? fun row => row.name == key

end Primitive

end LogoEngine
