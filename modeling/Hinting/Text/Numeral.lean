/-!
# Decimal numerals

A numeral is an optional single sign followed by at least one ASCII digit. It
reads as a signed 32-bit word when it fits in one.
-/

namespace Hinting.Text

/-- The number that a list of decimal digits denotes. -/
def digitsValue (cs : List Char) : Nat :=
  cs.foldl (fun n c => 10 * n + (c.toNat - '0'.toNat)) 0

/-- At least one character, and ASCII digits only. -/
def isDigits (cs : List Char) : Bool :=
  !cs.isEmpty && cs.all Char.isDigit

/-- Splits one leading sign off; the flag tells whether it is a minus. -/
def splitSign : List Char → Bool × List Char
  | '-' :: cs => (true, cs)
  | '+' :: cs => (false, cs)
  | cs => (false, cs)

/-- An optional sign and then digits. -/
def isNumeral (cs : List Char) : Bool :=
  isDigits (splitSign cs).2

/-- The integer that a numeral denotes, of any size. -/
def numeralValue (cs : List Char) : Int :=
  let n : Int := digitsValue (splitSign cs).2
  if (splitSign cs).1 then -n else n

/-- Reads a numeral as a word, unless it is none or does not fit. -/
def readWord? (cs : List Char) : Option Int32 :=
  if isNumeral cs ∧ Int32.minValue.toInt ≤ numeralValue cs ∧
      numeralValue cs ≤ Int32.maxValue.toInt then
    some (Int32.ofInt (numeralValue cs))
  else
    none

/-- The decimal text of a word, with a minus sign when it is negative. -/
def wordText (n : Int32) : String :=
  toString n.toInt

end Hinting.Text
