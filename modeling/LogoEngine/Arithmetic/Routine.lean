import LogoEngine.Arithmetic.Int32
import LogoEngine.Decimal.Binary

/-!
# Mathematical routines

The functions of one or two doubles that compiled code calls. The integer routines expect their
operands to be 32-bit integers already, and a divisor that is not zero: the code around them
checks both.
-/

namespace LogoEngine

/-- A mathematical routine. -/
inductive MathFn where
  | sqrt | exp | log10 | ln | trunc | round | sin | cos | atan | atan2 | pow
  /-- Remainder of 32-bit integers, with the sign of the dividend. -/
  | remainder
  /-- Remainder of 32-bit integers, with the sign of the divisor. -/
  | modulo
  | bitAnd | bitOr | bitXor | bitNot | ashift | lshift
deriving DecidableEq, Repr

namespace MathFn

/-- Every routine. -/
def all : List MathFn :=
  [sqrt, exp, log10, ln, trunc, round, sin, cos, atan, atan2, pow, remainder, modulo, bitAnd,
    bitOr, bitXor, bitNot, ashift, lshift]

/-- The name in listings. -/
def name : MathFn → String
  | sqrt => "Sqrt"
  | exp => "Exp"
  | log10 => "Log10"
  | ln => "Ln"
  | trunc => "Trunc"
  | round => "Round"
  | sin => "Sin"
  | cos => "Cos"
  | atan => "Atan"
  | atan2 => "Atan2"
  | pow => "Pow"
  | remainder => "Remainder"
  | modulo => "Modulo"
  | bitAnd => "BitAnd"
  | bitOr => "BitOr"
  | bitXor => "BitXor"
  | bitNot => "BitNot"
  | ashift => "Ashift"
  | lshift => "Lshift"

/-- Whether a routine takes two operands. -/
def isBinary : MathFn → Bool
  | atan2 | pow | remainder | modulo | bitAnd | bitOr | bitXor | ashift | lshift => true
  | _ => false

open Integer32 (ofFloat toFloat) in
/-- The value of a routine; one of a single operand ignores `b`. -/
def apply (f : MathFn) (a b : Float) : Float :=
  match f with
  | sqrt => a.sqrt
  | exp => a.exp
  | log10 => a.log10
  | ln => a.log
  | trunc => Decimal.truncate a
  | round => Decimal.roundHalfAway a
  | sin => a.sin
  | cos => a.cos
  | atan => a.atan
  | atan2 => Float.atan2 a b
  | pow => Float.pow a b
  | remainder => toFloat (Integer32.remainder (ofFloat a) (ofFloat b))
  | modulo => toFloat (Integer32.modulo (ofFloat a) (ofFloat b))
  | bitAnd => toFloat (ofFloat a &&& ofFloat b)
  | bitOr => toFloat (ofFloat a ||| ofFloat b)
  | bitXor => toFloat (ofFloat a ^^^ ofFloat b)
  | bitNot => toFloat (~~~ ofFloat a)
  | ashift => toFloat (Integer32.arithmeticShift (ofFloat a) (ofFloat b))
  | lshift => toFloat (Integer32.logicalShift (ofFloat a) (ofFloat b))

end MathFn

end LogoEngine
