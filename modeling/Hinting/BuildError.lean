import Hinting.Label
import Hinting.Statement

/-!
# Errors of program structure
-/

namespace Hinting

/-- Why a statement cannot stand where it does. -/
inductive BuildCause
  | unsupportedControlTransfer (mnemonic : Mnemonic)
  | unmatchedElse
  | unmatchedEif
  | duplicateElse
  | unterminatedIf
  | nestedDefinition
  | unmatchedEndf
  | missingFunctionLabel
  | unterminatedDefinition
  | instructionDefinition
deriving DecidableEq

namespace BuildCause

def message : BuildCause → String
  | .unsupportedControlTransfer mnemonic => "unsupported control transfer " ++ mnemonic.name
  | .unmatchedElse => "ELSE without a matching IF"
  | .unmatchedEif => "EIF without a matching IF"
  | .duplicateElse => "second ELSE for the same IF"
  | .unterminatedIf => "IF is never closed by EIF"
  | .nestedDefinition => "nested function definition"
  | .unmatchedEndf => "ENDF outside of a function definition"
  | .missingFunctionLabel => "no pushed label left for function definition"
  | .unterminatedDefinition => "function definition is never closed by ENDF"
  | .instructionDefinition => "instruction definitions are not supported"

end BuildCause

/-- Where a fault lies, in front of its message: the program, the function if it
lies in one, and the statement if it is known. -/
def locationText (program : String) (function : Option Label) (statement : Option StatementId) :
    String :=
  let functionText := match function with
    | some label => "[function " ++ Text.wordText label ++ "]"
    | none => ""
  let statementText := match statement with
    | some id => "@" ++ id.text
    | none => ""
  program ++ functionText ++ statementText ++ ": "

structure BuildError where
  tag : String
  /-- The function whose body is at fault. -/
  function : Option Label := none
  statement : Option StatementId
  cause : BuildCause
deriving DecidableEq

namespace BuildError

def message (e : BuildError) : String :=
  locationText e.tag e.function e.statement ++ e.cause.message

end BuildError

end Hinting
