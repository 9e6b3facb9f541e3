/-!
# Doubles as integers

Integer operations work on doubles that are exactly 32-bit integers. Conversion truncates,
clamps what is out of range and sends what is not a number to zero, so a double is a 32-bit
integer exactly when it survives the round trip.

The conversions are those of the logical model of doubles, which proofs can open.
-/

namespace LogoEngine

/-- The 64-bit integer that a double is truncated to. -/
def Integer64.ofFloat (x : Float) : Int64 :=
  x.toModel.toInt64

namespace Integer32

/-- The 32-bit integer that a double is truncated to. -/
def ofFloat (x : Float) : Int32 :=
  x.toModel.toInt32

/-- The double that is a 32-bit integer. -/
def toFloat (n : Int32) : Float :=
  .ofModel (.ofInt32 n)

end Integer32

/-- Whether a double survives the round trip through a 32-bit integer. -/
def isInt32 (x : Float) : Bool :=
  Integer32.toFloat (Integer32.ofFloat x) == x

namespace Integer32

/-- The remainder of division toward zero; it has the sign of the dividend. -/
def remainder (a b : Int32) : Int32 :=
  a % b

/-- The remainder of division toward minus infinity; it has the sign of the divisor. -/
def modulo (a b : Int32) : Int32 :=
  let r := a % b
  if r ≠ 0 ∧ (r < 0) ≠ (b < 0) then r + b else r

/-- The size of a count as an unsigned integer. -/
def magnitude (count : Int32) : UInt32 :=
  if count < 0 then (-count).toUInt32 else count.toUInt32

/-- Shift left, the count taken modulo 32. -/
def shiftLeft (a count : Int32) : Int32 :=
  (a.toUInt32 <<< (magnitude count % 32)).toInt32

/-- Arithmetic shift: to the left for a count that is not negative, else to the right with copies
of the sign. -/
def arithmeticShift (a count : Int32) : Int32 :=
  if 0 ≤ count then shiftLeft a count
  else a >>> (magnitude count % 32).toInt32

/-- Logical shift: to the left for a count that is not negative, else to the right with zeros. -/
def logicalShift (a count : Int32) : Int32 :=
  if 0 ≤ count then shiftLeft a count
  else (a.toUInt32 >>> (magnitude count % 32)).toInt32

end Integer32

end LogoEngine
