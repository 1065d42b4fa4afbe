import Hinting.SortedMap
import Hinting.Text.Numeral

/-!
# Function labels

Functions are numbered by signed 32-bit words.
-/

namespace Hinting

abbrev Label := Int32

abbrev LabelSet := SortedSet Label

namespace Label

/-- A chain of calls, outermost first. -/
def chainText (chain : List Label) : String :=
  String.intercalate " -> " (chain.map Text.wordText)

/-- A bracketed list of labels. -/
def listText (labels : List Label) : String :=
  "[" ++ String.intercalate ", " (labels.map Text.wordText) ++ "]"

end Label

end Hinting
