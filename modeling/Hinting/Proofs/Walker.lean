import Hinting.Proofs.CallCounting
import Hinting.Proofs.RunStep

/-!
# Walkers

A walker runs programs by walking through their flow graphs, from one position to the next.
It has one call stack. A call pushes its function and pops it when it returns; a failure
leaves the stack, the functions called and the number of statements as they are then. They
are put back only when the walker starts on another program. The counters of calls and the peak
are kept from program to program. A counter that runs over does not end a walk, but from then
on the counters say nothing.

What a walk comes to is a relation, which gives no outcome to a walk that never ends. Every
walk, call or arm that comes to its end leaves the call stack as it found it.
-/

namespace Hinting

namespace CallStack

theorem push_eq_ok_iff (s t : CallStack) (label : Label) :
    s.push label = .ok t ↔
      cycle? s.labels label = none ∧ t.labels = s.labels ++ [label] ∧ s.room = t.room + 1 := by
  obtain ⟨labels, room⟩ := s
  obtain ⟨labels', room'⟩ := t
  unfold push
  cases cycle? labels label with
  | some chain => simp
  | none =>
    cases room with
    | zero => simp
    | succ room => simp [eq_comm]

theorem pop_of_push {s t : CallStack} {label : Label} (h : s.push label = .ok t) : t.pop = s := by
  obtain ⟨_, hLabels, hRoom⟩ := (push_eq_ok_iff s t label).mp h
  simp [pop, isEmpty, hLabels, ← hRoom]

end CallStack

structure Walker where
  options : RunOptions := {}
  /-- The program that the walker is in. -/
  program : String := ""
  stack : CallStack := ⟨[], options.maxCallDepth⟩
  /-- How many statements of the program were begun. -/
  started : Nat := 0
  called : LabelSet := {}
  calls : Counters := some {}
  peak : Nat := 0
  /-- The statements of the program that were applied, with the call stack at that time. -/
  steps : List Step := []

/-- A walker and the environment of the statements it applies. -/
structure Walking where
  walker : Walker
  env : Environment

namespace Walker

/-- A fault at a statement of the body that is being walked. -/
def error (x : Walker) (body : Body) (position : Nat) (fault : Fault) : ExecutionError :=
  ⟨x.program, x.stack.current?, some (body.statementId position), fault⟩

/-- Starts on a program. -/
def start (x : Walker) (tag : String) : Walker :=
  { x with program := tag, stack := x.stack.clear, started := 0, called := {}, steps := [] }

/-- Counts a statement. -/
def begin (x : Walker) : Walker :=
  { x with started := x.started + 1 }

def addStep (x : Walker) (body : Body) (s : Statement) (before after : Environment) : Walker :=
  { x with steps := x.steps ++ [⟨x.stack.labels, body.tag, s, before, after⟩] }

def observe (x : Walker) (stack : ValueStack) : Walker :=
  { x with peak := max x.peak stack.peak }

def enter (x : Walker) (label : Label) (stack : CallStack) : Walker :=
  { x with stack, called := SortedSet.add x.called label, calls := x.calls.record label }

def leave (x : Walker) : Walker :=
  { x with stack := x.stack.pop }

end Walker

namespace Walking

/-- What came of a part of a walk. -/
abbrev Outcome (α : Type) := EStateM.Result ExecutionError Walking α

/-- Applies the statement at a position, unless the walker has used up its statements. The
result is the function to call next, if any. -/
def dispatch (body : Body) (position : Nat) (s : Statement) (w : Walking) :
    Outcome (Option Label) :=
  let walker := w.walker.begin
  if walker.options.maxStatements < walker.started then
    .error (walker.error body position .exceededBudget) ⟨walker, w.env⟩
  else
    match s.perform walker.options.axisCount w.env with
    | .ok target env => .ok target ⟨(walker.addStep body s w.env env).observe env.stack, env⟩
    | .error fault env =>
      .error (walker.error body position fault) ⟨walker.addStep body s w.env env, env⟩

/-- Enters the function that a call asks for. The result is its body. -/
def enter (body : Body) (position : Nat) (label : Label) (w : Walking) : Outcome Body :=
  match w.env.functions.get? label with
  | none => .error (w.walker.error body position (.undefinedFunction label)) w
  | some d =>
    match w.walker.stack.push label with
    | .error fault => .error (w.walker.error body position fault) w
    | .ok stack => .ok d.body { w with walker := w.walker.enter label stack }

def leave (w : Walking) : Walking :=
  { w with walker := w.walker.leave }

/-- Whether the ELSE arm of an IF is taken. There is none where control goes to the EIF. -/
def takesElse (w : Walking) (branch : Branch) (elsePosition : Nat) : Prop :=
  w.walker.options.branchPolicy = .bothArms ∧ elsePosition ≠ branch.eifPosition

mutual

/-- Walks through a body until control leaves it or arrives at `stop?`. -/
inductive Walks : Body → Option Nat → Option Nat → Walking → Outcome Unit → Prop
  | left {body : Body} {stop? : Option Nat} {w : Walking} : Walks body none stop? w (.ok () w)
  | past {body : Body} {position : Nat} {stop? : Option Nat} {w : Walking} :
      body.statements[position]? = none → Walks body (some position) stop? w (.ok () w)
  | stopped {body : Body} {position : Nat} {w : Walking} :
      Walks body (some position) (some position) w (.ok () w)
  | refused {body : Body} {position : Nat} {stop? : Option Nat} {s : Statement}
      {e : ExecutionError} {w t : Walking} :
      body.statements[position]? = some s → stop? ≠ some position →
      dispatch body position s w = .error e t →
      Walks body (some position) stop? w (.error e t)
  | failed {body : Body} {position : Nat} {stop? : Option Nat} {s : Statement}
      {target : Option Label} {e : ExecutionError} {w t u : Walking} :
      body.statements[position]? = some s → stop? ≠ some position →
      dispatch body position s w = .ok target t →
      Follows body position s target t (.error e u) →
      Walks body (some position) stop? w (.error e u)
  | next {body : Body} {position : Nat} {stop? next? : Option Nat} {s : Statement}
      {target : Option Label} {w t u : Walking} {r : Outcome Unit} :
      body.statements[position]? = some s → stop? ≠ some position →
      dispatch body position s w = .ok target t →
      Follows body position s target t (.ok next? u) → Walks body next? stop? u r →
      Walks body (some position) stop? w r

/-- Does what is left to do for a statement that was applied. The result is where control
goes next. -/
inductive Follows : Body → Nat → Statement → Option Label → Walking →
    Outcome (Option Nat) → Prop
  | failed {body : Body} {position : Nat} {s : Statement} {label : Label} {e : ExecutionError}
      {w t : Walking} :
      Calls body position label w (.error e t) →
      Follows body position s (some label) w (.error e t)
  | called {body : Body} {position : Nat} {s : Statement} {label : Label} {w t : Walking} :
      Calls body position label w (.ok () t) →
      Follows body position s (some label) w (.ok (body.successors position).head? t)
  | refused {body : Body} {position : Nat} {s : Statement} {e : ExecutionError} {w t : Walking} :
      s.kind = .ifStart → Branches body position w (.error e t) →
      Follows body position s none w (.error e t)
  | branched {body : Body} {position : Nat} {next? : Option Nat} {s : Statement}
      {w t : Walking} :
      s.kind = .ifStart → Branches body position w (.ok next? t) →
      Follows body position s none w (.ok (next?.or (body.successors position).head?) t)
  | passed {body : Body} {position : Nat} {s : Statement} {w : Walking} :
      s.kind ≠ .ifStart →
      Follows body position s none w (.ok (body.successors position).head? w)

/-- Runs a function. -/
inductive Calls : Body → Nat → Label → Walking → Outcome Unit → Prop
  | refused {body : Body} {position : Nat} {label : Label} {e : ExecutionError}
      {w t : Walking} :
      enter body position label w = .error e t → Calls body position label w (.error e t)
  | failed {body callee : Body} {position : Nat} {label : Label} {e : ExecutionError}
      {w t u : Walking} :
      enter body position label w = .ok callee t → Walks callee (some 0) none t (.error e u) →
      Calls body position label w (.error e u)
  | returned {body callee : Body} {position : Nat} {label : Label} {w t u : Walking} :
      enter body position label w = .ok callee t → Walks callee (some 0) none t (.ok () u) →
      Calls body position label w (.ok () u.leave)

/-- Takes the ELSE arm of an IF on a copy of the environment, if the options ask for it, and
goes on to the THEN arm. -/
inductive Branches : Body → Nat → Walking → Outcome (Option Nat) → Prop
  | failed {body : Body} {position thenPosition elsePosition : Nat} {branch : Branch}
      {e : ExecutionError} {w t : Walking} :
      body.branch? position = some branch →
      body.successors position = [thenPosition, elsePosition] →
      w.takesElse branch elsePosition →
      Walks body (some elsePosition) (some branch.eifPosition) w (.error e t) →
      Branches body position w (.error e { t with env := w.env })
  | bothArms {body : Body} {position thenPosition elsePosition : Nat} {branch : Branch}
      {w t : Walking} :
      body.branch? position = some branch →
      body.successors position = [thenPosition, elsePosition] →
      w.takesElse branch elsePosition →
      Walks body (some elsePosition) (some branch.eifPosition) w (.ok () t) →
      Branches body position w (.ok (some thenPosition) { t with env := w.env })
  | thenArm {body : Body} {position thenPosition elsePosition : Nat} {branch : Branch}
      {w : Walking} :
      body.branch? position = some branch →
      body.successors position = [thenPosition, elsePosition] →
      ¬w.takesElse branch elsePosition →
      Branches body position w (.ok (some thenPosition) w)
  | straight {body : Body} {position : Nat} {w : Walking} :
      (∀ branch thenPosition elsePosition, body.branch? position = some branch →
        body.successors position ≠ [thenPosition, elsePosition]) →
      Branches body position w (.ok none w)

end

theorem dispatch_eq_ok {body : Body} {position : Nat} {s : Statement} {w reached : Walking}
    {target : Option Label} (h : dispatch body position s w = .ok target reached) :
    ∃ env, s.perform w.walker.options.axisCount w.env = .ok target env ∧
      reached = ⟨(w.walker.begin.addStep body s w.env env).observe env.stack, env⟩ := by
  unfold dispatch at h
  dsimp only at h
  split at h
  · cases h
  · split at h
    · rename_i target' env hPerform
      cases h
      exact ⟨env, hPerform, rfl⟩
    · cases h

theorem enter_eq_ok {body callee : Body} {position : Nat} {label : Label} {w reached : Walking}
    (h : enter body position label w = .ok callee reached) :
    ∃ d stack, w.env.functions.get? label = some d ∧ w.walker.stack.push label = .ok stack ∧
      callee = d.body ∧ reached = { w with walker := w.walker.enter label stack } := by
  unfold enter at h
  split at h
  · cases h
  · rename_i d hLookup
    split at h
    · cases h
    · rename_i stack hPush
      cases h
      exact ⟨d, stack, hLookup, hPush, rfl, rfl⟩

/-- A part of a walk that comes to its end leaves the call stack as it found it. -/
def KeepsStack {α : Type} (w : Walking) (r : Outcome α) : Prop :=
  ∀ a reached, r = .ok a reached → reached.walker.stack = w.walker.stack

theorem KeepsStack.ok {α : Type} (w : Walking) (a : α) : KeepsStack w (.ok a w) := by
  intro b reached h
  cases h
  rfl

theorem KeepsStack.error {α : Type} (w reached : Walking) (e : ExecutionError) :
    KeepsStack w (.error e reached : Outcome α) := by
  intro b reached h
  cases h

theorem KeepsStack.of_eq {α : Type} {w t : Walking} {r : Outcome α} (h : KeepsStack t r)
    (hStack : t.walker.stack = w.walker.stack) : KeepsStack w r :=
  fun a reached hr => (h a reached hr).trans hStack

mutual

theorem Walks.keepsStack {body : Body} {position? stop? : Option Nat} {w : Walking}
    {r : Outcome Unit} (h : Walks body position? stop? w r) : KeepsStack w r := by
  match h with
  | .left => exact .ok w ()
  | .past _ => exact .ok w ()
  | .stopped => exact .ok w ()
  | .refused _ _ _ => exact .error w _ _
  | .failed _ _ _ _ => exact .error w _ _
  | .next _ _ hDispatch hFollows hRest =>
    have hKept := hFollows.keepsStack
    have hKeptLater := hRest.keepsStack
    obtain ⟨env, _, rfl⟩ := dispatch_eq_ok hDispatch
    exact hKeptLater.of_eq (hKept _ _ rfl)
termination_by structural h

theorem Follows.keepsStack {body : Body} {position : Nat} {s : Statement}
    {target : Option Label} {w : Walking} {r : Outcome (Option Nat)}
    (h : Follows body position s target w r) : KeepsStack w r := by
  match h with
  | .failed _ => exact .error w _ _
  | .called hCalls => exact (KeepsStack.ok _ _).of_eq (hCalls.keepsStack _ _ rfl)
  | .refused _ _ => exact .error w _ _
  | .branched _ hBranches => exact (KeepsStack.ok _ _).of_eq (hBranches.keepsStack _ _ rfl)
  | .passed _ => exact .ok w _
termination_by structural h

theorem Calls.keepsStack {body : Body} {position : Nat} {label : Label} {w : Walking}
    {r : Outcome Unit} (h : Calls body position label w r) : KeepsStack w r := by
  match h with
  | .refused _ => exact .error w _ _
  | .failed _ _ => exact .error w _ _
  | .returned hEnter hWalks =>
    have hKept := hWalks.keepsStack _ _ rfl
    obtain ⟨d, stack, _, hPush, rfl, rfl⟩ := enter_eq_ok hEnter
    intro _ reached hReached
    cases hReached
    rw [leave, Walker.leave, hKept]
    exact CallStack.pop_of_push hPush
termination_by structural h

theorem Branches.keepsStack {body : Body} {position : Nat} {w : Walking}
    {r : Outcome (Option Nat)} (h : Branches body position w r) : KeepsStack w r := by
  match h with
  | .failed _ _ _ _ => exact .error w _ _
  | .bothArms _ _ _ hWalks =>
    have hKept := hWalks.keepsStack _ _ rfl
    intro next? reached hReached
    cases hReached
    exact hKept
  | .thenArm _ _ _ => exact .ok w _
  | .straight _ => exact .ok w _
termination_by structural h

end

end Walking

namespace Walker

/-- What came of running a program. -/
structure Ended where
  result : Except ExecutionError LabelSet
  env : Environment
  walker : Walker

/-- How a walk through a program ends. The functions called are handed over when it succeeds. -/
def Ended.ofOutcome : Walking.Outcome Unit → Ended
  | .error e w => ⟨.error e, w.env, w.walker⟩
  | .ok () w => ⟨.ok w.walker.called, w.env, { w.walker with called := {} }⟩

/-- Runs a program of a font. -/
inductive Executes (x : Walker) (font : Font) (tag : String) (env : Environment) : Ended → Prop
  | unknown : font.programs.get? tag = none →
      x.Executes font tag env ⟨.error ⟨tag, none, none, .unknownProgram tag⟩, env, x.start tag⟩
  | walked {program : Program} {r : Walking.Outcome Unit} :
      font.programs.get? tag = some program →
      Walking.Walks program.body (some 0) none ⟨x.start tag, env⟩ r →
      x.Executes font tag env (.ofOutcome r)

end Walker

end Hinting
