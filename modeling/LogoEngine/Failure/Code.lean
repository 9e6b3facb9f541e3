import LogoEngine.Text.Search

/-!
# Numbered errors

The errors a running program can see. Each has a number and a message template in which `%1` and
`%2` stand for the values the message is about.
-/

namespace LogoEngine

/-- The cause of an error. -/
inductive ErrorCode where
  | stackOverflow | turtleOutOfBounds | doesntLike | didntOutput | notEnoughInputs
  | tooManyInputs | dontSay | parenNotFound | noValue | unexpectedParen | noHow | noCatch
  | alreadyDefined | fileSystem | plainThrow | isPrimitive | toInProc | noTest | noGraphics
  | notInsideProcedure | customThrow | noApply
deriving DecidableEq, Repr

namespace ErrorCode

/-- Every cause. -/
def all : List ErrorCode :=
  [stackOverflow, turtleOutOfBounds, doesntLike, didntOutput, notEnoughInputs, tooManyInputs,
    dontSay, parenNotFound, noValue, unexpectedParen, noHow, noCatch, alreadyDefined, fileSystem,
    plainThrow, isPrimitive, toInProc, noTest, noGraphics, notInsideProcedure, customThrow,
    noApply]

/-- The name of a cause. -/
def name : ErrorCode → String
  | stackOverflow => "StackOverflow"
  | turtleOutOfBounds => "TurtleOutOfBounds"
  | doesntLike => "DoesntLike"
  | didntOutput => "DidntOutput"
  | notEnoughInputs => "NotEnoughInputs"
  | tooManyInputs => "TooManyInputs"
  | dontSay => "DontSay"
  | parenNotFound => "ParenNotFound"
  | noValue => "NoValue"
  | unexpectedParen => "UnexpectedParen"
  | noHow => "NoHow"
  | noCatch => "NoCatch"
  | alreadyDefined => "AlreadyDefined"
  | fileSystem => "FileSystem"
  | plainThrow => "Throw"
  | isPrimitive => "IsPrimitive"
  | toInProc => "ToInProc"
  | noTest => "NoTest"
  | noGraphics => "NoGraphics"
  | notInsideProcedure => "NotInsideProcedure"
  | customThrow => "CustomThrow"
  | noApply => "NoApply"

/-- The number users see. -/
def number : ErrorCode → Nat
  | stackOverflow => 2
  | turtleOutOfBounds => 3
  | doesntLike => 4
  | didntOutput => 5
  | notEnoughInputs => 6
  | tooManyInputs => 8
  | dontSay => 9
  | parenNotFound => 10
  | noValue => 11
  | unexpectedParen => 12
  | noHow => 13
  | noCatch => 14
  | alreadyDefined => 15
  | fileSystem => 18
  | plainThrow => 21
  | isPrimitive => 22
  | toInProc => 23
  | noTest => 25
  | noGraphics => 28
  | notInsideProcedure => 31
  | customThrow => 35
  | noApply => 44

/-- The message, with placeholders. -/
def template : ErrorCode → String
  | stackOverflow => "Stack overflow"
  | turtleOutOfBounds => "Turtle out of bounds"
  | doesntLike => "%1 doesn't like %2 as input"
  | didntOutput => "%1 didn't output to %2"
  | notEnoughInputs => "not enough inputs to %1"
  | tooManyInputs => "too many inputs to %1"
  | dontSay => "You don't say what to do with %1"
  | parenNotFound => "')' not found"
  | noValue => "%1 has no value"
  | unexpectedParen => "unexpected ')'"
  | noHow => "I don't know how to %1"
  | noCatch => "Can't find catch tag for %1"
  | alreadyDefined => "%1 is already defined"
  | fileSystem => "File system error"
  | plainThrow => "Throw \"Error"
  | isPrimitive => "%1 is a primitive"
  | toInProc => "can't use %1 inside a procedure"
  | noTest => "%1 without TEST"
  | noGraphics => "Graphics not initialized"
  | notInsideProcedure => "Can only use %1 inside a procedure"
  | customThrow => "%1"
  | noApply => "%1 can't be applied"

/-- Puts in the arguments one after the other, the first for `%` followed by `index`. A later
argument also replaces placeholders that an earlier one brought along. -/
def fill (index : Nat) : List String → List Char → List Char
  | [], text => text
  | arg :: args, text =>
    fill (index + 1) args (Text.replaceAll ('%' :: Nat.toDigits 10 index) arg.toList text)

/-- The message for the given arguments. -/
def format (code : ErrorCode) (args : List String) : String :=
  String.ofList (fill 1 args code.template.toList)

end ErrorCode

end LogoEngine
