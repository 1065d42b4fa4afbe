import Hinting.Label

/-!
# Call graphs

How often each function was called. A function that was never called has no entry.
-/

namespace Hinting

structure CallGraph where
  counts : SortedMap Label Nat := {}
deriving DecidableEq

namespace CallGraph

def empty : CallGraph := {}

variable (g : CallGraph)

def count (label : Label) : Nat :=
  (g.counts.get? label).getD 0

def size : Nat :=
  g.counts.size

def isEmpty : Bool :=
  g.counts.isEmpty

/-- The functions called, in label order. -/
def labels : List Label :=
  g.counts.keys

/-- The functions called and how often, in label order. -/
def toList : List (Label × Nat) :=
  g.counts.entries

/-- Counts a number of calls of one function. -/
def add (label : Label) (calls : Nat) : CallGraph :=
  ⟨g.counts.update label fun count => count.getD 0 + calls⟩

/-- Counts one call. -/
def record (label : Label) : CallGraph :=
  g.add label 1

/-- Counts all calls of another graph. -/
def merge (h : CallGraph) : CallGraph :=
  h.toList.foldl (fun g (label, calls) => g.add label calls) g

end CallGraph

end Hinting
