/-!
# Random numbers

A generator with 64 bits of state. A draw multiplies two 64-bit numbers and folds the two halves
of the product together; an integer below `n` is the high half of a draw times `n`, where draws
that would favour some results are repeated.
-/

namespace LogoEngine

/-- The state of the generator. -/
structure Random where
  seed : UInt64
deriving DecidableEq, Repr

namespace Random

/-- What is added to the state before each draw. -/
def step : UInt64 := 0x2d358dccaa6c78a5

/-- The mask of the second factor. -/
def mask : UInt64 := 0x8bb84b93962eacc9

/-- The high 64 bits of a product. -/
def highProduct (a b : UInt64) : UInt64 :=
  (a.toNat * b.toNat / Nat.pow 2 64).toUInt64

/-- One draw of 64 bits. -/
def next (g : Random) : UInt64 × Random :=
  let seed := g.seed + step
  let other := seed ^^^ mask
  ((seed * other) ^^^ highProduct seed other, ⟨seed⟩)

/-- Draws until the low half of the product reaches `least`, at most `fuel` times. -/
def redraw (n least : UInt64) : Nat → UInt64 → Random → UInt64 × Random
  | 0, r, g => (highProduct r n, g)
  | fuel + 1, r, g =>
    if r * n < least then
      let (r, g) := g.next
      redraw n least fuel r g
    else (highProduct r n, g)

/-- A draw below `n`, which is not zero. Fewer than half of all draws are repeated. -/
def below (n : UInt64) (g : Random) : UInt64 × Random :=
  let (r, g) := g.next
  if r * n < n then redraw n ((0 - n) % n) 1000 r g else (highProduct r n, g)

/-- An integer from `low` to `high`, both included. -/
def between (low high : Int64) (g : Random) : Int64 × Random :=
  let n := high.toUInt64 - low.toUInt64 + 1
  if n == 0 then
    let (r, g) := g.next
    (r.toInt64, g)
  else
    let (r, g) := g.below n
    (low + r.toInt64, g)

end Random

end LogoEngine
