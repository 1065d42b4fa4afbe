import Hinting.Graphics

/-!
# Arithmetic and logic

The result of an instruction is known when its operands are, and for AND and OR
also when one operand decides alone.
-/

namespace Hinting.Value

/-- One for true and zero for false. -/
def bit (b : Bool) : Int32 :=
  if b then 1 else 0

/-- Compares two words. -/
def compare (test : Int32 → Int32 → Bool) : Value → Value → Value :=
  zipWith fun a b => some (bit (test a b))

/-- Computes a word from two. -/
def combine (f : Int32 → Int32 → Int32) : Value → Value → Value :=
  zipWith fun a b => some (f a b)

/-- False as soon as one operand is. -/
def conjunction (a b : Value) : Value :=
  if a = .known 0 ∨ b = .known 0 then .known 0 else zipWith (fun _ _ => some 1) a b

/-- Whether a value is known to be other than zero. -/
def isTrue : Value → Bool
  | .known word => word ≠ 0
  | .unknown => false

/-- True as soon as one operand is. -/
def disjunction (a b : Value) : Value :=
  if a.isTrue ∨ b.isTrue then .known 1 else zipWith (fun _ _ => some 0) a b

def negation : Value → Value :=
  map fun word => bit (word = 0)

/-- Rounds a distance and tests what is left over of two pixels. -/
def roundsTo (rounding : Rounding) (residue : Int) : Value → Value
  | .known distance =>
    (rounding.round distance).map fun rounded => bit (rounded.toInt % 128 = residue)
  | .unknown => .unknown

/-- Rounds to an odd number of pixels. -/
def isOdd (rounding : Rounding) : Value → Value :=
  roundsTo rounding 64

/-- Rounds to an even number of pixels. -/
def isEven (rounding : Rounding) : Value → Value :=
  roundsTo rounding 0

/-- The product of two fixed-point words. -/
def product : Value → Value → Value :=
  zipWith fun a b => FixedPoint.mulDiv a b 64

/-- The quotient of two fixed-point words, unknown for a zero divisor. -/
def quotient : Value → Value → Value :=
  zipWith fun a b => FixedPoint.mulDivTruncated a 64 b

/-- The magnitude; the least word is its own. -/
def magnitude : Value → Value :=
  map fun word => if word < 0 then -word else word

end Hinting.Value
