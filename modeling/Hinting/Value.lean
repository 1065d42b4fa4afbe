import Hinting.Text.Numeral

/-!
# Abstract values

A value is a known word or unknown. Literals, and what is computed from known
values only, are known. Measurements of the outline and queries about the
rendering are not.
-/

namespace Hinting

inductive Value
  | known (word : Int32)
  | unknown
deriving DecidableEq

namespace Value

def known? : Value → Option Int32
  | .known word => some word
  | .unknown => none

/-- Applies a function to a known word. -/
def map (f : Int32 → Int32) : Value → Value
  | .known word => .known (f word)
  | .unknown => .unknown

/-- Applies a function to two known words; the result may still be unknown. -/
def zipWith (f : Int32 → Int32 → Option Int32) : Value → Value → Value
  | .known a, .known b =>
    match f a b with
    | some word => .known word
    | none => .unknown
  | _, _ => .unknown

def text : Value → String
  | .known word => Text.wordText word
  | .unknown => "?"

end Value

end Hinting
