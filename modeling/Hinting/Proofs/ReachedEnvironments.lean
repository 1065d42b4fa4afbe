import Hinting.Proofs.Nesting
import Hinting.Proofs.StackDepth

/-!
# The environments that runs go through

Every statement is applied in the environment that was there at the start, or in one that an
earlier statement has left: the one before it, the last one of a callee, or the last one in front
of an arm that ran on a copy. The same is true of the environment in which a run ends, whether it
fails or not. So what is true at the start and is kept by every statement is true in all
environments that any number of runs go through, each of them starting where the last one ended.
-/

namespace Hinting

open Hinting.Action

namespace Step

/-- The statement was applied to the first environment and left the second one, also when it
failed. -/
def Applied (s : Step) : Prop :=
  ∃ axisCount, reached (s.statement.perform axisCount s.before) = s.after

/-- The environments that are there after some statements: the first one, and what each of the
statements has left. -/
inductive AtHand (start : Environment) (steps : List Step) : Environment → Prop
  | start : AtHand start steps start
  | after {step : Step} : step ∈ steps → AtHand start steps step.after

theorem AtHand.trans {start between env : Environment} {steps later : List Step}
    (h : AtHand start steps between) (h' : AtHand between later env) :
    AtHand start (steps ++ later) env := by
  cases h' with
  | after hStep => exact .after (List.mem_append_right _ hStep)
  | start =>
    cases h with
    | start => exact .start
    | after hStep => exact .after (List.mem_append_left _ hStep)

theorem AtHand.invariant {P : Environment → Prop} {start env : Environment} {steps : List Step}
    (h : AtHand start steps env) (hStart : P start) (hAfter : ∀ step ∈ steps, P step.after) :
    P env := by
  cases h with
  | start => exact hStart
  | after hStep => exact hAfter _ hStep

/-- Statements in the order in which they were applied, each of them in an environment that was
there by then. -/
inductive Succession (start : Environment) : List Step → Prop
  | nil : Succession start []
  | concat {steps : List Step} {step : Step} : Succession start steps →
      AtHand start steps step.before → step.Applied → Succession start (steps ++ [step])

namespace Succession

variable {start between : Environment} {steps later : List Step}

theorem append (h : Succession start steps) (hBetween : AtHand start steps between)
    (h' : Succession between later) : Succession start (steps ++ later) := by
  induction h' with
  | nil =>
    rw [List.append_nil]
    exact h
  | concat _ hBefore hApplied ih =>
    rw [← List.append_assoc]
    exact .concat ih (hBetween.trans hBefore) hApplied

theorem applied (h : Succession start steps) : ∀ step ∈ steps, step.Applied := by
  induction h with
  | nil => exact List.forall_mem_nil _
  | concat _ _ hApplied ih =>
    exact List.forall_mem_append.mpr ⟨ih, List.forall_mem_singleton.mpr hApplied⟩

/-- What is true of the first environment and is kept by each of the statements is true all the
way. -/
theorem invariant {P : Environment → Prop} (h : Succession start steps) (hStart : P start)
    (hKeeps : ∀ step ∈ steps, P step.before → P step.after) :
    ∀ step ∈ steps, P step.before ∧ P step.after := by
  induction h with
  | nil => exact List.forall_mem_nil _
  | @concat steps step _ hBefore _ ih =>
    rw [List.forall_mem_append, List.forall_mem_singleton] at hKeeps ⊢
    have hEarlier := ih hKeeps.1
    have hThere := hBefore.invariant hStart fun earlier hStep => (hEarlier earlier hStep).2
    exact ⟨hEarlier, hThere, hKeeps.2 hThere⟩

end Succession

end Step

open Step Event

/-- How a part of a run takes the state `s` to the state `t`: through the environments that the
statements of `events` leave, of which it ends in one. -/
structure RunState.Passes (s t : RunState) (events : List Event) : Prop where
  trace : t.tally.trace = events.reverse ++ s.tally.trace
  steps : Succession s.env (allSteps events)
  env : AtHand s.env (allSteps events) t.env

namespace RunState.Passes

variable {s t u : RunState} {events later : List Event}

theorem refl (s : RunState) : s.Passes s [] :=
  ⟨rfl, .nil, .start⟩

theorem trans (h : s.Passes t events) (h' : t.Passes u later) : s.Passes u (events ++ later) where
  trace := by rw [h'.trace, h.trace, List.reverse_append, List.append_assoc]
  steps := by
    rw [allSteps_append]
    exact h.steps.append h.env h'.steps
  env := by
    rw [allSteps_append]
    exact h.env.trans h'.env

/-- Applying a statement, also when it fails. -/
theorem step {step : Step} (hBefore : step.before = s.env) (hAfter : step.after = t.env)
    (hApplied : step.Applied) (hTrace : t.tally.trace = .step step :: s.tally.trace) :
    s.Passes t [.step step] where
  trace := hTrace
  steps := .concat .nil (hBefore ▸ .start) hApplied
  env := hAfter ▸ .after List.mem_cons_self

theorem dropCopy (h : s.Passes t events) : s.Passes { t with env := s.env } events :=
  { h with env := .start }

theorem entering {label : Label}
    (h : RunState.Passes { s with tally := s.tally.openCall label } t events) :
    s.Passes { t with tally := t.tally.closeCall label s.tally.trace } [.call label events] := by
  have hSteps : allSteps [.call label events] = allSteps events := by simp
  refine ⟨t.tally.trace_closeCall h.trace label _, ?_, ?_⟩
  · rw [hSteps]
    exact h.steps
  · rw [hSteps]
    exact h.env

end RunState.Passes

/-- However the part of a run ends, it has passed from one environment to the next. -/
abbrev Passing {α : Type} (x : RunAction α) : Prop :=
  Moves (fun s t => ∃ events, s.Passes t events) x

theorem RunAction.call_cases (options : RunOptions) (program : String) (room : Nat)
    (chain : List Label) (blame : Fault → ExecutionError) (label : Label) (state : RunState) :
    (∃ fault, call options program room chain blame label state = .error (blame fault) state) ∨
      ∃ d inner, room = inner + 1 ∧ call options program room chain blame label state =
        enter options program inner chain label d state := by
  cases hLookup : state.env.functions.get? label with
  | none => exact .inl ⟨_, call_of_undefined hLookup⟩
  | some d =>
    cases hCycle : CallStack.cycle? chain label with
    | some cycle => exact .inl ⟨_, call_of_cycle hLookup hCycle⟩
    | none =>
      cases room with
      | zero => exact .inl ⟨_, call_of_full hLookup hCycle⟩
      | succ inner => exact .inr ⟨d, inner, rfl, call_eq_enter hLookup hCycle⟩

namespace Passing

variable {α β : Type}

theorem pure (a : α) : Passing (pure a : RunAction α) :=
  fun s => ⟨[], .refl s⟩

theorem bind {x : RunAction α} {f : α → RunAction β} (hx : Passing x)
    (hf : ∀ a, Passing (f a)) : Passing (x >>= f) := by
  refine Moves.bind hx hf (fun _ _ h => h) ?_
  rintro s t u ⟨events, hEvents⟩ ⟨later, hLater⟩
  exact ⟨events ++ later, hEvents.trans hLater⟩

theorem onCopy {x : RunAction Unit} (hx : Passing x) : Passing (RunAction.onCopy x) := by
  intro s
  obtain ⟨events, hEvents⟩ := hx s
  unfold RunAction.onCopy
  split
  · rename_i t hOk
    rw [hOk] at hEvents
    exact ⟨events, hEvents.dropCopy⟩
  · rename_i e t hError
    rw [hError] at hEvents
    exact ⟨events, hEvents.dropCopy⟩

theorem entering {x : RunAction Unit} (hx : Passing x) (label : Label) :
    Passing (RunAction.entering label x) := by
  intro s
  obtain ⟨events, hEvents⟩ := hx { s with tally := s.tally.openCall label }
  unfold RunAction.entering
  split
  · rename_i t hOk
    rw [hOk] at hEvents
    exact ⟨_, hEvents.entering⟩
  · rename_i e t hError
    rw [hError] at hEvents
    exact ⟨_, hEvents.entering⟩

theorem dispatch (options : RunOptions) (a : Activation) (statement : Statement) :
    Passing (RunAction.dispatch options a statement) := by
  intro s
  unfold RunAction.dispatch
  split
  · exact ⟨[], .refl s⟩
  · split
    · rename_i target env hPerform
      exact ⟨_, .step rfl rfl ⟨_, congrArg reached hPerform⟩ rfl⟩
    · rename_i fault env hPerform
      exact ⟨_, .step rfl rfl ⟨_, congrArg reached hPerform⟩ rfl⟩

theorem visit (options : RunOptions) (a : Activation)
    {call : (Fault → ExecutionError) → Label → RunAction Unit}
    (hCall : ∀ blame label, Passing (call blame label)) (s : Statement) :
    Passing (RunAction.visit options a call s) := by
  refine (dispatch options a s).bind fun target => ?_
  cases target with
  | none => exact pure ()
  | some label => exact hCall _ label

theorem block {visit : Statement → RunAction Unit} (hVisit : ∀ s, Passing (visit s))
    (policy : BranchPolicy) (b : Block) : Passing (b.run policy visit) :=
  b.run_of_closed (Q := fun x => Passing x) (pure ()) (fun _ _ hx hy => hx.bind fun _ => hy)
    (fun _ => onCopy) policy fun s _ => hVisit s

theorem call (options : RunOptions) (program : String) (room : Nat) (chain : List Label)
    (blame : Fault → ExecutionError) (label : Label) :
    Passing (RunAction.call options program room chain blame label) := by
  -- the room falls with every call entered
  induction room generalizing chain blame label with
  | zero =>
    intro s
    rcases RunAction.call_cases options program 0 chain blame label s with
      ⟨fault, hRefused⟩ | ⟨d, inner, hRoom, _⟩
    · rw [hRefused]
      exact ⟨[], .refl s⟩
    · cases hRoom
  | succ room ih =>
    intro s
    rcases RunAction.call_cases options program (room + 1) chain blame label s with
      ⟨fault, hRefused⟩ | ⟨d, inner, hRoom, hEntered⟩
    · rw [hRefused]
      exact ⟨[], .refl s⟩
    · cases hRoom
      rw [hEntered]
      exact (block (visit options _ (ih (chain ++ [label]))) _ _).entering label s

theorem body (options : RunOptions) (program : String) (b : Body) :
    Passing (RunAction.body options program b) :=
  block (visit options _ (call options program _ _)) _ _

end Passing

namespace Font

theorem run_passes (font : Font) (options : RunOptions) (tag : String) (env : Environment) :
    Succession env (allSteps (font.run options tag env).trace) ∧
      AtHand env (allSteps (font.run options tag env).trace) (font.run options tag env).env := by
  cases hProgram : font.programs.get? tag with
  | none =>
    rw [run_of_unknown hProgram]
    exact ⟨.nil, .start⟩
  | some program =>
    obtain ⟨events, hPasses⟩ := Passing.body options tag program.body { env }
    have hEvents : (reached (RunAction.body options tag program.body { env })).tally.trace.reverse =
        events := by
      rw [hPasses.trace, List.append_nil, List.reverse_reverse]
    rw [← hEvents] at hPasses
    cases hBody : RunAction.body options tag program.body { env } with
    | ok _ state =>
      rw [hBody] at hPasses
      rw [run_of_ok hProgram hBody]
      exact ⟨hPasses.steps, hPasses.env⟩
    | error e state =>
      rw [hBody] at hPasses
      rw [run_of_error hProgram hBody]
      exact ⟨hPasses.steps, hPasses.env⟩

/-- The runs of programs in sessions, each in the environment that the one before has left. -/
def runsInTurn (font : Font) (env : Environment) : List (Session × String) → List Run
  | [] => []
  | (session, tag) :: rest =>
    let run := (session.execute font tag env).1
    run :: font.runsInTurn run.env rest

/-- The statements applied in runs that follow each other. -/
def stepsInTurn (font : Font) (env : Environment) (orders : List (Session × String)) : List Step :=
  (font.runsInTurn env orders).flatMap fun run => allSteps run.trace

theorem stepsInTurn_passes (font : Font) (env : Environment) (orders : List (Session × String)) :
    Succession env (font.stepsInTurn env orders) ∧
      ∀ run ∈ font.runsInTurn env orders, AtHand env (font.stepsInTurn env orders) run.env := by
  induction orders generalizing env with
  | nil => exact ⟨.nil, List.forall_mem_nil _⟩
  | cons order rest ih =>
    obtain ⟨session, tag⟩ := order
    obtain ⟨hSteps, hEnd⟩ := font.run_passes session.options tag env
    obtain ⟨hRest, hEnds⟩ := ih (font.run session.options tag env).env
    rw [stepsInTurn, runsInTurn, List.flatMap_cons]
    refine ⟨hSteps.append hEnd hRest, List.forall_mem_cons.mpr ⟨?_, fun run hRun => ?_⟩⟩
    · exact hEnd.trans .start
    · exact hEnd.trans (hEnds run hRun)

/-- The environments that runs of a font's programs go through: the one in which they start, those
in which they end, and those around each statement. -/
inductive Reaches (font : Font) (orders : List (Session × String)) : Environment → Prop
  | initial : Reaches font orders font.initialEnvironment
  | ended {run : Run} : run ∈ font.runsInTurn font.initialEnvironment orders →
      Reaches font orders run.env
  | before {step : Step} : step ∈ font.stepsInTurn font.initialEnvironment orders →
      Reaches font orders step.before
  | after {step : Step} : step ∈ font.stepsInTurn font.initialEnvironment orders →
      Reaches font orders step.after

/-- What is true at the start and is kept by each of the statements applied is true all the way. -/
theorem Reaches.of_steps {font : Font} {orders : List (Session × String)} {env : Environment}
    (h : font.Reaches orders env) {P : Environment → Prop} (hInitial : P font.initialEnvironment)
    (hKeeps : ∀ step ∈ font.stepsInTurn font.initialEnvironment orders,
      P step.before → P step.after) : P env := by
  obtain ⟨hSteps, hEnds⟩ := font.stepsInTurn_passes font.initialEnvironment orders
  have hAll := hSteps.invariant hInitial hKeeps
  cases h with
  | initial => exact hInitial
  | before hStep => exact (hAll _ hStep).1
  | after hStep => exact (hAll _ hStep).2
  | ended hRun => exact (hEnds _ hRun).invariant hInitial fun step hStep => (hAll step hStep).2

theorem moves_of_mem_stepsInTurn {font : Font} {env : Environment}
    {orders : List (Session × String)} {step : Step} (hStep : step ∈ font.stepsInTurn env orders)
    {R : Environment → Environment → Prop}
    (hMoves : ∀ axisCount, Moves R (step.statement.perform axisCount)) :
    R step.before step.after := by
  obtain ⟨axisCount, hAfter⟩ := (font.stepsInTurn_passes env orders).1.applied step hStep
  exact hAfter ▸ hMoves axisCount step.before

theorem Reaches.invariant {font : Font} {orders : List (Session × String)} {env : Environment}
    (h : font.Reaches orders env) {P : Environment → Prop} (hInitial : P font.initialEnvironment)
    (hKeeps : ∀ (s : Statement) axisCount,
      Moves (fun env after => P env → P after) (s.perform axisCount)) : P env :=
  h.of_steps hInitial fun step hStep => moves_of_mem_stepsInTurn hStep (hKeeps step.statement)

end Font

end Hinting
