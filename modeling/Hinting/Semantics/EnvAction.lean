import Hinting.Environment

/-!
# Actions

The effect of an instruction on an environment. An action that fails leaves the
environment as far as it had come.
-/

namespace Hinting

abbrev EnvAction := EStateM Fault Environment

namespace EnvAction

variable {α : Type}

/-- Works on the stack of the environment. -/
def onStack (action : StackAction α) : EnvAction α := fun env =>
  match action env.stack with
  | .ok a stack => .ok a { env with stack }
  | .error fault stack => .error fault { env with stack }

def pop : EnvAction Value :=
  onStack StackAction.pop

def push (value : Value) : EnvAction Unit :=
  onStack (StackAction.push value)

def discard (count : Nat) : EnvAction Unit :=
  onStack (StackAction.discard count)

/-- Pushes a number of results about which nothing is known. -/
def pushUnknown (count : Nat) : EnvAction Unit :=
  onStack (modify (·.pushAll (List.replicate count .unknown)))

/-- Changes the graphics state. -/
def setGraphics (change : GraphicsState → GraphicsState) : EnvAction Unit :=
  modify fun env => { env with graphics := change env.graphics }

/-- Pops the new value of a register. -/
def popInto (set : Value → GraphicsState → GraphicsState) : EnvAction Unit := do
  let value ← pop
  setGraphics (set value)

def readCvt (index : Value) : EnvAction Value := fun env =>
  match env.readCvt index with
  | .ok value => .ok value env
  | .error fault => .error fault env

def writeCvt (index value : Value) : EnvAction Unit := fun env =>
  match env.writeCvt index value with
  | .ok changed => .ok () changed
  | .error fault => .error fault env

def readStorage (index : Value) : EnvAction Value := fun env =>
  match env.readStorage index with
  | .ok value => .ok value env
  | .error fault => .error fault env

def writeStorage (index value : Value) : EnvAction Unit := fun env =>
  match env.writeStorage index value with
  | .ok changed => .ok () changed
  | .error fault => .error fault env

end EnvAction

end Hinting
