import Hinting.Fault
import Hinting.Value

/-!
# Value stacks

The stack of abstract values, with the largest depth it ever had. An operation
that runs out of values fails and keeps what it has popped by then.
-/

namespace Hinting

structure ValueStack where
  /-- The values from the top down. -/
  values : List Value := []
  /-- The largest depth so far. -/
  peak : Nat := 0
deriving DecidableEq

/-- An operation on a stack. When it fails, the stack stays as it was left. -/
abbrev StackAction := EStateM Fault ValueStack

namespace ValueStack

def depth (s : ValueStack) : Nat :=
  s.values.length

def isEmpty (s : ValueStack) : Bool :=
  s.values.isEmpty

/-- The values from the bottom up. -/
def bottomUp (s : ValueStack) : List Value :=
  s.values.reverse

def top? (s : ValueStack) : Option Value :=
  s.values.head?

/-- Puts values on the stack, the first of the list on top. -/
def pushAll (s : ValueStack) (values : List Value) : ValueStack :=
  let values := values ++ s.values
  ⟨values, max s.peak values.length⟩

def push (s : ValueStack) (value : Value) : ValueStack :=
  s.pushAll [value]

/-- Pushes words in the order in which a program lists them. -/
def pushWords (s : ValueStack) (words : List Int32) : ValueStack :=
  s.pushAll (words.reverse.map .known)

/-- Drops all values; the largest depth stays. -/
def clear (s : ValueStack) : ValueStack :=
  { s with values := [] }

end ValueStack

namespace StackAction

/-- Takes the top value. -/
def pop : StackAction Value := fun s =>
  match s.values with
  | [] => .error .stackUnderflow s
  | value :: rest => .ok value { s with values := rest }

def push (value : Value) : StackAction Unit :=
  modify (·.push value)

/-- Drops a number of values, or none when there are not enough. -/
def discard (count : Nat) : StackAction Unit := fun s =>
  if count ≤ s.depth then .ok () { s with values := s.values.drop count }
  else .error .stackUnderflow s

/-- Replaces the top value. -/
def unary (f : Value → Value) : StackAction Unit := do
  let a ← pop
  push (f a)

/-- Replaces the two top values; the upper one is the second operand. -/
def binary (f : Value → Value → Value) : StackAction Unit := do
  let b ← pop
  let a ← pop
  push (f a b)

/-- Copies the top value. -/
def dup : StackAction Unit := fun s =>
  match s.top? with
  | some value => .ok () (s.push value)
  | none => .error .stackUnderflow s

/-- Exchanges the two top values. -/
def swap : StackAction Unit := do
  let a ← pop
  let b ← pop
  push a
  push b

/-- Moves the third value from the top to the top. -/
def roll : StackAction Unit := do
  let a ← pop
  let b ← pop
  let c ← pop
  push b
  push a
  push c

/-- The place, from the top down, that a one-based index denotes. -/
def place? (s : ValueStack) (index : Int32) : Option Nat :=
  let n := index.toInt
  if 1 ≤ n ∧ n ≤ s.depth then some (n.toNat - 1) else none

/-- Copies the value at an index to the top. -/
def copyFrom (index : Int32) : StackAction Unit := fun s =>
  match (place? s index).bind fun place => s.values[place]? with
  | some value => .ok () (s.push value)
  | none => .error .stackUnderflow s

/-- Pops an index and copies the value there to the top. An unknown index gives an
unknown value. -/
def copyIndex : StackAction Unit := do
  match ← pop with
  | .known index => copyFrom index
  | .unknown => push .unknown

/-- Moves the value at an index to the top. -/
def moveFrom (index : Int32) : StackAction Unit := fun s =>
  match place? s index with
  | some place =>
    .ok () { s with values := s.values[place]?.toList ++ s.values.eraseIdx place }
  | none => .error .stackUnderflow s

/-- Makes all values unknown, of which there must be one. -/
def forget : StackAction Unit := fun s =>
  if s.isEmpty then .error .stackUnderflow s
  else .ok () { s with values := s.values.map fun _ => .unknown }

/-- Pops an index and moves the value there to the top. With an unknown index any
value may have moved, so all of them become unknown. -/
def moveIndex : StackAction Unit := do
  match ← pop with
  | .known index => moveFrom index
  | .unknown => forget

end StackAction

end Hinting
