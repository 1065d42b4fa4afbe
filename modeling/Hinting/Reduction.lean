import Hinting.Font

/-!
# Reduction

Drops the functions of a font that nothing uses and writes the font program anew.
-/

namespace Hinting.Font

/-- Keeps only the functions with the given labels. -/
def reduce (font : Font) (used : LabelSet) : Font :=
  { font with functions := font.functions.filter fun d => used.contains d.label }

/-- The tables to store after a reduction. -/
def reducedTables (font : Font) (used : LabelSet) : Tables :=
  (font.reduce used).tables

/-- What is reported about a reduction. -/
def reduceLog (font : Font) (used : LabelSet) : List LogRecord :=
  let removed := font.functions.dropped fun d => used.contains d.label
  let remaining := (font.reduce used).functions.size
  if removed.isEmpty then [.allInUse remaining] else [.removed removed remaining]

end Hinting.Font
