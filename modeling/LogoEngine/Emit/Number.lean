import LogoEngine.Emit.Retry

/-!
# Arithmetic

The code of arithmetic primitives, given the registers of their inputs. Checks on the inputs come
in input order, before the operation.
-/

namespace LogoEngine.Emit

/-- Folds any number of inputs with an operation. -/
def fold (step : Reg → Reg → Emit Reg) (identity : Float) : List Reg → Emit Reg
  | [] => real identity
  | first :: rest => rest.foldlM step first

/-- The number with the opposite sign. -/
def negate (src : Reg) : Emit Reg := do
  let dst ← freshReg .real
  instr (.neg dst src)
  return dst

/-- The reciprocal of a number that is not zero. -/
def reciprocal (who : Ref) (a : Reg) : Emit Reg := do
  let divisor ← comparedToZero .ne who a
  let one ← real 1.0
  arith .div one divisor

/-- The quotient by a number that is not zero. -/
def quotient (who : Ref) (a b : Reg) : Emit Reg := do
  let divisor ← comparedToZero .ne who b
  arith .div a divisor

/-- A remainder of 32-bit integers. -/
def remainder (f : MathFn) (who : Ref) (a b : Reg) : Emit Reg := do
  let dividend ← int32 who a
  let divisor ← nonzeroInt32 who b
  call (.math f) [dividend, divisor]

/-- The square root of a number that is not negative. -/
def squareRoot (who : Ref) (a : Reg) : Emit Reg := do
  let operand ← comparedToZero .ge who a
  call (.math .sqrt) [operand]

/-- A logarithm of a positive number. -/
def logarithm (f : MathFn) (who : Ref) (a : Reg) : Emit Reg := do
  let operand ← comparedToZero .gt who a
  call (.math f) [operand]

/-- A power, where a negative base needs an integral exponent. -/
def power (who : Ref) (base given : Reg) : Emit Reg := do
  let exponent ← freshReg .real
  move exponent given
  let zero ← real 0.0
  let negative ← compare .lt base zero
  let check ← freshLabel
  let merge ← freshLabel
  endBlock (.branch negative check merge) check
  let checked ← int32 who exponent
  deliver exponent checked merge merge
  call (.math .pow) [base, exponent]

/-- The ratio of a circle's circumference to its diameter. -/
def pi : Float := 3.141592653589793

/-- A function of an angle, which may be given in degrees. -/
def trigonometric (f : MathFn) (degrees : Bool) (a : Reg) : Emit Reg := do
  if degrees then
    let scale ← real (pi / 180.0)
    let angle ← arith .mul a scale
    call (.math f) [angle]
  else
    call (.math f) [a]

/-- An angle from radians to the unit asked for. -/
def inUnit (degrees : Bool) (angle : Reg) : Emit Reg := do
  if degrees then
    let scale ← real (180.0 / pi)
    arith .mul angle scale
  else
    return angle

/-- The angle of a tangent. -/
def arctangent (degrees : Bool) (a : Reg) : Emit Reg := do
  let angle ← call (.math .atan) [a]
  inUnit degrees angle

/-- The angle of the point with the given coordinates. -/
def arctangentOf (degrees : Bool) (x y : Reg) : Emit Reg := do
  let angle ← call (.math .atan2) [y, x]
  inUnit degrees angle

/-- A bitwise operation on any number of 32-bit integers. -/
def bitwise (f : MathFn) (identity : Float) (who : Ref) (rs : List Reg) : Emit Reg := do
  let ints ← rs.mapM (int32 who)
  fold (fun acc next => call (.math f) [acc, next]) identity ints

/-- The bitwise complement. -/
def complement (who : Ref) (a : Reg) : Emit Reg := do
  let operand ← int32 who a
  call (.math .bitNot) [operand]

/-- A shift of a 32-bit integer. -/
def shift (f : MathFn) (who : Ref) (a b : Reg) : Emit Reg := do
  let number ← int32 who a
  let distance ← int32 who b
  call (.math f) [number, distance]

/-- A random number below a positive integer. -/
def random (who : Ref) (a : Reg) : Emit Reg := do
  let bound ← positiveInt32 who a
  call .random [bound]

/-- A random number between two integers. -/
def randomRange (who : Ref) (a b : Reg) : Emit Reg := do
  let start ← int32 who a
  let stop ← int32 who b
  let backwards ← compare .gt start stop
  returnWhen backwards do
    let name ← const who
    let word ← call .wordFromReal [stop]
    call .errDoesntLike [name, word]
  call .randomRange [start, stop]

/-- Reseeds the random numbers, with a given count or not. -/
def rerandom (who node : Ref) : List Reg → Emit Reg
  | [] => do
    perform .rerandom []
    const node
  | seed :: _ => do
    let seed ← count who seed
    perform .rerandomSeed [seed]
    const node

/-- A number with a width and a number of places. -/
def form (who : Ref) (value width places : Reg) : Emit Reg := do
  let width ← int32 who width
  let places ← count who places
  call .form [value, width, places]

/-- An infix operator where a call belongs. -/
def infixFault (who node : Ref) : Emit Reg := do
  let name ← const who
  let error ← call .errNotEnoughInputs [name]
  returnNow error
  const node

end LogoEngine.Emit
