import Hinting.BuildError
import Hinting.Text.Quoted

/-!
# Execution faults

Why a run stops before its end, and where.
-/

namespace Hinting

inductive Fault
  | unknownProgram (tag : String)
  | undefinedFunction (label : Label)
  | unresolvedCallTarget
  /-- A function called itself through the functions of a chain. -/
  | recursiveCall (chain : List Label)
  | callStackOverflow (chain : List Label)
  | exceededBudget
  | stackUnderflow
  | unresolvedOperand (mnemonic : Mnemonic)
  | invalidCvtIndex (index : Int32)
  | invalidStorageIndex (index : Int32)
  | invalidZoneIndex (index : Int32)
  | negativeLoopCounter
  | definitionInProgram (mnemonic : Mnemonic)
  | unsupportedControlTransfer (mnemonic : Mnemonic)
deriving DecidableEq

namespace Fault

def message : Fault → String
  | .unknownProgram tag => "no program with tag " ++ Text.quoted tag
  | .undefinedFunction label => "call to undefined function " ++ Text.wordText label
  | .unresolvedCallTarget => "call target could not be resolved to a label"
  | .recursiveCall chain => "recursive call chain " ++ Label.chainText chain
  | .callStackOverflow chain => "call stack overflow in chain " ++ Label.chainText chain
  | .exceededBudget => "too many instructions executed"
  | .stackUnderflow => "value stack underflow"
  | .unresolvedOperand mnemonic => "operand of " ++ mnemonic.name ++ " could not be resolved"
  | .invalidCvtIndex index => "cvt index " ++ Text.wordText index ++ " was out of bounds"
  | .invalidStorageIndex index => "storage area index " ++ Text.wordText index ++ " was invalid"
  | .invalidZoneIndex index =>
    "zone index " ++ Text.wordText index ++ " was invalid (only 0 or 1 are permitted)"
  | .negativeLoopCounter => "attempt to set the loop counter to a negative value"
  | .definitionInProgram mnemonic =>
    mnemonic.name ++ " is not permitted outside of the font program"
  | .unsupportedControlTransfer mnemonic => "unsupported control transfer " ++ mnemonic.name

end Fault

/-- A fault in a run of a program, in the function being executed if any, at a
statement if one was reached. -/
structure ExecutionError where
  program : String
  function : Option Label
  statement : Option StatementId
  fault : Fault
deriving DecidableEq

namespace ExecutionError

def message (e : ExecutionError) : String :=
  locationText e.program e.function e.statement ++ e.fault.message

end ExecutionError

end Hinting
