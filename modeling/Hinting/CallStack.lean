import Hinting.Fault

/-!
# Call stacks

The labels of the functions being executed. A function may not be entered while
it is already being executed, nor when there is no room left.
-/

namespace Hinting

/-- The number of nested calls a run may make when nothing else is said. -/
def defaultCallDepth : Nat := 32

structure CallStack where
  /-- The functions being executed, outermost first. -/
  labels : List Label := []
  /-- How many further calls may be nested. -/
  room : Nat := defaultCallDepth
deriving DecidableEq

namespace CallStack

/-- The part of a chain of calls that would close on itself through `label`. -/
def cycle? (labels : List Label) (label : Label) : Option (List Label) :=
  if labels.contains label then some (labels.dropWhile (· ≠ label) ++ [label]) else none

variable (s : CallStack)

def depth : Nat :=
  s.labels.length

def isEmpty : Bool :=
  s.labels.isEmpty

/-- The innermost function. -/
def current? : Option Label :=
  s.labels.getLast?

/-- Enters a function. -/
def push (label : Label) : Except Fault CallStack :=
  match cycle? s.labels label, s.room with
  | some chain, _ => .error (.recursiveCall chain)
  | none, 0 => .error (.callStackOverflow (s.labels ++ [label]))
  | none, room + 1 => .ok ⟨s.labels ++ [label], room⟩

/-- Leaves the innermost function; an empty stack stays as it is. -/
def pop : CallStack :=
  if s.isEmpty then s else ⟨s.labels.dropLast, s.room + 1⟩

/-- Leaves all functions. -/
def clear : CallStack :=
  ⟨[], s.room + s.depth⟩

end CallStack

end Hinting
