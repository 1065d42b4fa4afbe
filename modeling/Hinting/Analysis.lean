import Hinting.Run

/-!
# Analysis of a font

The control value program runs first, if there is one. Each glyph program then runs
on a copy of the environment it left, with the stack emptied, so no glyph program
sees what another one did.
-/

namespace Hinting

structure Analysis where
  /-- The functions that each program called. -/
  programCalls : SortedMap String LabelSet := {}
  calls : CallGraph := {}
  /-- The largest stack depth of any program. -/
  peak : Nat := 0
  /-- The graphics state after the control value program. -/
  graphics : GraphicsState
  /-- The control values after the control value program. -/
  cvt : List Value
deriving DecidableEq

namespace Analysis

/-- Takes a run into account, unless it failed. -/
def add (a : Analysis) (r : Run) : Except ExecutionError Analysis := do
  let called ← r.result
  return { a with
    programCalls := a.programCalls.insert r.program called
    calls := a.calls.merge r.calls
    peak := max a.peak r.peak }

/-- The functions that any program called. -/
def calledFunctions (a : Analysis) : LabelSet :=
  a.programCalls.entries.foldl (fun labels (_, called) => SortedSet.union labels called) {}

end Analysis

namespace Font

/-- The run of the control value program. -/
def controlValueRun? (font : Font) (options : RunOptions) : Option Run :=
  if font.programs.contains controlValueProgramTag then
    some (font.run options controlValueProgramTag font.initialEnvironment)
  else
    none

/-- The environment in which glyph programs start. -/
def glyphEnvironment (font : Font) (controlValueRun? : Option Run) : Environment :=
  let env := match controlValueRun? with
    | some run => run.env
    | none => font.initialEnvironment
  { env with stack := env.stack.clear }

/-- The runs of programs on the same environment, up to the first that fails. -/
def runsOn (font : Font) (options : RunOptions) (env : Environment) : List String → List Run
  | [] => []
  | tag :: rest =>
    let run := font.run options tag env
    run :: if run.failed then [] else font.runsOn options env rest

/-- The programs to analyze: those asked for, or all glyph programs. -/
def selectedTags (font : Font) (glyphs : Option (List String)) : List String :=
  glyphs.getD font.glyphTags

/-- The runs of an analysis in order, up to the first that fails. -/
def analysisRuns (font : Font) (options : RunOptions) (controlValueRun? : Option Run)
    (glyphs : Option (List String)) : List Run :=
  let env := font.glyphEnvironment controlValueRun?
  let tags := font.selectedTags glyphs
  match controlValueRun? with
  | none => font.runsOn options env tags
  | some run => run :: if run.failed then [] else font.runsOn options env tags

/-- Analyzes the control value program and glyph programs. -/
def analyze (font : Font) (glyphs : Option (List String)) (options : RunOptions) :
    Except ExecutionError Analysis :=
  let controlValueRun? := font.controlValueRun? options
  let env := font.glyphEnvironment controlValueRun?
  (font.analysisRuns options controlValueRun? glyphs).foldlM Analysis.add
    { graphics := env.graphics, cvt := env.cvt }

/-- What is reported during an analysis. -/
def analyzeLog (font : Font) (glyphs : Option (List String)) (options : RunOptions) :
    List LogRecord :=
  (font.analysisRuns options (font.controlValueRun? options) glyphs).flatMap Run.log ++
    match font.analyze glyphs options with
    | .ok a => [.analyzed a.programCalls.size a.calls.size a.peak]
    | .error _ => []

/-- Notes in each program which functions it called. -/
def withCalls (font : Font) (a : Analysis) : Font :=
  a.programCalls.entries.foldl (fun font (tag, called) => font.setCalled tag called) font

end Font

end Hinting
