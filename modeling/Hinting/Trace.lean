import Hinting.Semantics.Dispatch

/-!
# Traces

A trace records what happened in one activation of a body, in order: the statements
applied, and the calls made with their own traces.
-/

namespace Hinting

/-- One statement applied. -/
structure Step where
  /-- The functions being executed, outermost first. -/
  chain : List Label
  /-- The program text that the statement comes from. -/
  tag : String
  statement : Statement
  before : Environment
  /-- What the statement left, also when it failed. -/
  after : Environment

inductive Event
  | step (s : Step)
  | call (label : Label) (trace : List Event)

namespace Step

def log (s : Step) : List LogRecord :=
  s.statement.performLog s.tag s.before.stack

end Step

namespace Event

mutual

/-- The statements applied in an event, in order. -/
def steps : Event → List Step
  | .step s => [s]
  | .call _ trace => allSteps trace

/-- The statements applied in a trace, in order. -/
def allSteps : List Event → List Step
  | [] => []
  | event :: rest => event.steps ++ allSteps rest

end

end Event

end Hinting
