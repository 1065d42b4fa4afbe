import Hinting.FunctionTable
import Hinting.Listing
import Hinting.Log

/-!
# Fonts

All hinting programs of a font: the functions of its font program, every other
program by tag, and the control values.
-/

namespace Hinting

/-- The tag of the control value program, which runs before any glyph program. -/
def controlValueProgramTag : String := "prep"

structure Program where
  body : Body
  /-- The functions that the program called when it was last analyzed. -/
  called : LabelSet := {}
deriving DecidableEq

/-- What a font writer needs back: the font program text and the control values. -/
structure Tables where
  fontProgram : List String
  cvt : List Int32
deriving DecidableEq

structure Font where
  programs : SortedMap String Program := {}
  functions : FunctionTable := {}
  cvt : List Int32 := []
deriving DecidableEq

/-- Why a font cannot be built or changed. -/
inductive FontError
  | decode (error : DecodeError)
  | build (error : BuildError)
  | cvtPosition (position : Nat)
deriving DecidableEq

namespace FontError

def message : FontError → String
  | .decode error => error.message
  | .build error => error.message
  | .cvtPosition position => "cvt position " ++ toString position ++ " is outside of the table"

end FontError

namespace Font

/-- Reads the program `tag` into a font. A font program replaces the function
table, any other program the one of the same tag. -/
def addProgram (font : Font) (tag text : String) : Except FontError Font := do
  let statements ← (readProgram tag text).mapError FontError.decode
  if tag = fontProgramTag then
    let functions ← (FunctionTable.ofFontProgram statements).mapError FontError.build
    return { font with functions }
  else
    let body ← (Body.ofStatements tag statements).mapError FontError.build
    return { font with programs := font.programs.insert tag { body } }

/-- Reads the programs of a font in order. -/
def load (programs : List (String × String)) (cvt : List Int32) : Except FontError Font :=
  programs.foldlM (fun font (tag, text) => font.addProgram tag text) { cvt }

/-- What is reported while programs are read into a font, up to the first error. -/
def loadLog : Font → List (String × String) → List LogRecord
  | _, [] => []
  | font, (tag, text) :: rest =>
    match font.addProgram tag text with
    | .ok extended =>
      (if tag = fontProgramTag then [.functionsDefined extended.functions.size] else []) ++
        loadLog extended rest
    | .error _ => []

/-- The tags of all programs but the control value program. -/
def glyphTags (font : Font) : List String :=
  font.programs.keys.filter (· ≠ controlValueProgramTag)

/-- Replaces one control value. -/
def setCvt (font : Font) (position : Nat) (value : Int32) : Except FontError Font :=
  if position < font.cvt.length then .ok { font with cvt := font.cvt.set position value }
  else .error (.cvtPosition position)

/-- Notes which functions the program `tag` called; unknown tags are passed over. -/
def setCalled (font : Font) (tag : String) (called : LabelSet) : Font :=
  match font.programs.get? tag with
  | some program => { font with programs := font.programs.insert tag { program with called } }
  | none => font

/-- Drops the functions with the given labels. -/
def removeFunctions (font : Font) (labels : LabelSet) : Font :=
  { font with functions := font.functions.filter fun d => !labels.contains d.label }

/-- The labels that `removeFunctions` drops, in table order. -/
def removedLabels (font : Font) (labels : LabelSet) : List Label :=
  font.functions.dropped fun d => !labels.contains d.label

def tables (font : Font) : Tables :=
  ⟨font.functions.assembly, font.cvt⟩

end Font

end Hinting
