import Hinting.Label
import Hinting.Statement

/-!
# Log records

What the operations report while they work, in order, as data. The text of a
record is its level and its message.
-/

namespace Hinting

inductive LogRecord
  /-- A statement is about to be applied. -/
  | dispatching (id : StatementId) (statement : Statement)
  | cvtWriteThroughUnknownIndex
  | storageWriteThroughUnknownIndex
  /-- A program ran to its end. -/
  | executed (tag : String) (statements functions : Nat)
  /-- A font program was read. -/
  | functionsDefined (count : Nat)
  | analyzed (programs functions stackDepth : Nat)
  /-- A reduction found nothing to remove. -/
  | allInUse (count : Nat)
  | removed (labels : List Label) (remaining : Nat)
deriving DecidableEq

namespace LogRecord

def level : LogRecord → String
  | .dispatching .. => "TRACE"
  | .cvtWriteThroughUnknownIndex | .storageWriteThroughUnknownIndex => "WARN"
  | .executed .. | .functionsDefined _ | .analyzed .. => "DEBUG"
  | .allInUse _ | .removed .. => "INFO"

def message : LogRecord → String
  | .dispatching id s => id.text ++ ": " ++ s.text
  | .cvtWriteThroughUnknownIndex => "cvt write through an unknown index"
  | .storageWriteThroughUnknownIndex => "storage write through an unknown index"
  | .executed tag statements functions =>
    tag ++ ": executed " ++ toString statements ++ " statements, " ++ toString functions ++
      " functions called"
  | .functionsDefined count => toString count ++ " functions defined"
  | .analyzed programs functions stackDepth =>
    "analyzed " ++ toString programs ++ " programs, " ++ toString functions ++
      " functions reached, peak stack depth " ++ toString stackDepth
  | .allInUse count => "all " ++ toString count ++ " functions are in use"
  | .removed labels remaining =>
    "removed " ++ toString labels.length ++ " unused functions: " ++ Label.listText labels ++ ", " ++
      toString remaining ++ " remain"

def text (r : LogRecord) : String :=
  r.level ++ " " ++ r.message

end LogRecord

end Hinting
