import Hinting.CallGraph
import Hinting.CallStack
import Hinting.Font
import Hinting.Trace

/-!
# Runs

A run applies the statements of a program one after the other. Of an IF only the
THEN arm is taken, whatever the condition, or both arms: then the ELSE arm runs
first, on a copy of the environment that is dropped afterwards. A call runs the
body of the function on the caller's environment.

The recursion follows the block of the body, and for calls the room left on the
call stack, so a run ends whatever the limit on statements. A run that fails keeps
the environment and the records it has made by then.
-/

namespace Hinting

/-- Which arms of an IF are taken. -/
inductive BranchPolicy
  | thenArm | bothArms
deriving DecidableEq

structure RunOptions where
  branchPolicy : BranchPolicy := .thenArm
  /-- How deep calls may be nested. -/
  maxCallDepth : Nat := defaultCallDepth
  /-- How many statements a run may apply. -/
  maxStatements : Nat := 1000000
  /-- The number of variation axes of the font. -/
  axisCount : Nat := 0
deriving DecidableEq

/-- What a run has recorded. -/
structure Tally where
  /-- The number of statements applied. -/
  executed : Nat := 0
  called : LabelSet := {}
  calls : CallGraph := {}
  /-- The largest stack depth after any statement. -/
  peak : Nat := 0
  /-- The trace of the current activation, the last event first. -/
  trace : List Event := []

structure RunState where
  env : Environment
  tally : Tally := {}

/-- A part of a run. When it fails, the state stays as it was left. -/
abbrev RunAction := EStateM ExecutionError RunState

/-- The body being executed: in which program, through which calls, and from which
program text. -/
structure Activation where
  program : String
  chain : List Label
  tag : String

namespace Activation

/-- A fault at a statement of the body. -/
def error (a : Activation) (s : Statement) (fault : Fault) : ExecutionError :=
  ⟨a.program, a.chain.getLast?, some (s.id a.tag), fault⟩

end Activation

namespace Tally

/-- Counts a statement and adds it to the trace. -/
def addStep (t : Tally) (step : Step) : Tally :=
  { t with executed := t.executed + 1, trace := .step step :: t.trace }

/-- Records the depth of a stack. -/
def observe (t : Tally) (stack : ValueStack) : Tally :=
  { t with peak := max t.peak stack.peak }

/-- Counts a call and starts the trace of the callee. -/
def openCall (t : Tally) (label : Label) : Tally :=
  { t with called := SortedSet.add t.called label, calls := t.calls.record label, trace := [] }

/-- Puts the trace of a callee into the trace of its caller. -/
def closeCall (t : Tally) (label : Label) (outer : List Event) : Tally :=
  { t with trace := .call label t.trace.reverse :: outer }

end Tally

namespace RunAction

/-- Applies one statement, unless the run has used up its statements. The result is
the function to call next, if any. -/
def dispatch (options : RunOptions) (a : Activation) (s : Statement) : RunAction (Option Label) :=
  fun state =>
    if options.maxStatements ≤ state.tally.executed then
      .error (a.error s .exceededBudget) state
    else
      match s.perform options.axisCount state.env with
      | .ok target env =>
        let tally := state.tally.addStep ⟨a.chain, a.tag, s, state.env, env⟩
        .ok target ⟨env, tally.observe env.stack⟩
      | .error fault env =>
        .error (a.error s fault) ⟨env, state.tally.addStep ⟨a.chain, a.tag, s, state.env, env⟩⟩

/-- Applies one statement and makes the call it asks for. `call` is told how a
refused call is to be blamed. -/
def visit (options : RunOptions) (a : Activation)
    (call : (Fault → ExecutionError) → Label → RunAction Unit) (s : Statement) :
    RunAction Unit := do
  match ← dispatch options a s with
  | some label => call (a.error s) label
  | none => return ()

/-- Runs on a copy of the environment that is dropped afterwards. -/
def onCopy (action : RunAction Unit) : RunAction Unit := fun state =>
  match action state with
  | .ok () reached => .ok () { reached with env := state.env }
  | .error error reached => .error error { reached with env := state.env }

/-- Runs the body of a function that is being entered. -/
def entering (label : Label) (action : RunAction Unit) : RunAction Unit := fun state =>
  match action { state with tally := state.tally.openCall label } with
  | .ok () reached =>
    .ok () { reached with tally := reached.tally.closeCall label state.tally.trace }
  | .error error reached =>
    .error error { reached with tally := reached.tally.closeCall label state.tally.trace }

end RunAction

namespace Block

/-- Visits the statements of a block. -/
def run (policy : BranchPolicy) (visit : Statement → RunAction Unit) : Block → RunAction Unit
  | .nil => return ()
  | .step s rest => do
    visit s
    rest.run policy visit
  | .cond s thenArm eif rest => do
    visit s
    thenArm.run policy visit
    visit eif
    rest.run policy visit
  | .condElse s thenArm mid elseArm eif rest => do
    visit s
    if policy = .bothArms then
      RunAction.onCopy do
        visit mid
        elseArm.run policy visit
    thenArm.run policy visit
    visit eif
    rest.run policy visit

end Block

namespace RunAction

/-- Calls a function. `room` is how many further calls may be nested and `chain`
the functions being executed. -/
def call (options : RunOptions) (program : String) :
    (room : Nat) → (chain : List Label) → (Fault → ExecutionError) → Label → RunAction Unit
  | room, chain, blame, label => do
    match (← get).env.functions.get? label with
    | none => throw (blame (.undefinedFunction label))
    | some d =>
      match CallStack.cycle? chain label, room with
      | some cycle, _ => throw (blame (.recursiveCall cycle))
      | none, 0 => throw (blame (.callStackOverflow (chain ++ [label])))
      | none, room + 1 =>
        entering label (d.body.block.run options.branchPolicy
          (visit options ⟨program, chain ++ [label], d.body.tag⟩
            (call options program room (chain ++ [label]))))

/-- Runs the body of a program. -/
def body (options : RunOptions) (program : String) (b : Body) : RunAction Unit :=
  b.block.run options.branchPolicy
    (visit options ⟨program, [], b.tag⟩ (call options program options.maxCallDepth []))

end RunAction

/-- What came of running a program. -/
structure Run where
  program : String
  /-- The functions called, directly or through others. -/
  result : Except ExecutionError LabelSet
  env : Environment
  /-- The number of statements applied. -/
  executed : Nat := 0
  calls : CallGraph := {}
  /-- The largest stack depth after any statement. -/
  peak : Nat := 0
  trace : List Event := []

namespace Run

/-- Whether the run stopped before its end. -/
def failed (r : Run) : Bool :=
  match r.result with
  | .ok _ => false
  | .error _ => true

/-- What is reported during a run. -/
def log (r : Run) : List LogRecord :=
  (Event.allSteps r.trace).flatMap Step.log ++
    match r.result with
    | .ok called => [.executed r.program r.executed called.size]
    | .error _ => []

end Run

/-- Runs the program `tag` of a font on an environment. Calls refer to the functions
of the environment. -/
def Font.run (font : Font) (options : RunOptions) (tag : String) (env : Environment) : Run :=
  match font.programs.get? tag with
  | none => { program := tag, result := .error ⟨tag, none, none, .unknownProgram tag⟩, env }
  | some program =>
    let finish (result : Except ExecutionError Unit) (state : RunState) : Run :=
      { program := tag
        result := result.map fun _ => state.tally.called
        env := state.env
        executed := state.tally.executed
        calls := state.tally.calls
        peak := state.tally.peak
        trace := state.tally.trace.reverse }
    match RunAction.body options tag program.body { env } with
    | .ok () state => finish (.ok ()) state
    | .error error state => finish (.error error) state

/-- The environment in which a font's programs start. -/
def Font.initialEnvironment (font : Font) : Environment :=
  Environment.initial font.functions font.cvt

/-- Runs of programs of one font, with their calls and stack depths taken together. -/
structure Session where
  options : RunOptions := {}
  calls : CallGraph := {}
  peak : Nat := 0

namespace Session

/-- Takes a run into account, also when it failed. -/
def add (s : Session) (r : Run) : Session :=
  { s with calls := s.calls.merge r.calls, peak := max s.peak r.peak }

/-- Runs a program with the options of the session. -/
def execute (s : Session) (font : Font) (tag : String) (env : Environment) : Run × Session :=
  let run := font.run s.options tag env
  (run, s.add run)

end Session

end Hinting
