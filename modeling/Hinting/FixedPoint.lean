/-!
# Fixed-point arithmetic

Distances are 26.6 fixed-point words: 64 units to the pixel. Sums wrap at 32 bits;
products and quotients are formed exactly and cut to 32 bits at the end.
-/

namespace Hinting.FixedPoint

/-- The largest multiple of `unit` that is not above a word. -/
def floorTo (unit : Int) (x : Int32) : Int32 :=
  Int32.ofInt (unit * (x.toInt / unit))

/-- Rounds down to a whole pixel. -/
def floor (x : Int32) : Int32 :=
  floorTo 64 x

/-- Rounds to the nearest whole pixel, a half upwards. -/
def round (x : Int32) : Int32 :=
  floor (x + 32)

/-- Rounds up to a whole pixel. -/
def ceil (x : Int32) : Int32 :=
  floor (x + 63)

/-- Rounds to the nearest half pixel, a quarter upwards. -/
def roundHalf (x : Int32) : Int32 :=
  floorTo 32 (x + 16)

/-- The quotient of the magnitudes, to the nearest integer and a half upwards. -/
def nearestQuotient (product divisor : Int) : Int :=
  (product.natAbs + divisor.natAbs / 2) / divisor.natAbs

/-- `a * b / c` to the nearest integer, a half away from zero; nothing for a zero
divisor. -/
def mulDiv (a b c : Int32) : Option Int32 :=
  if c = 0 then none
  else
    let product := a.toInt * b.toInt
    let quotient := nearestQuotient product c.toInt
    some (Int32.ofInt (if (product < 0) ≠ (c.toInt < 0) then -quotient else quotient))

/-- `a * b / c` cut off towards zero; nothing for a zero divisor. -/
def mulDivTruncated (a b c : Int32) : Option Int32 :=
  if c = 0 then none else some (Int32.ofInt ((a.toInt * b.toInt).tdiv c.toInt))

end Hinting.FixedPoint
