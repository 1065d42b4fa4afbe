import Hinting.Proofs.Frame
import Hinting.Run

/-!
# What each part of a run can do

For every part of a run its outcomes are described once, with the state they start
from and the state they reach. What a whole run preserves follows from what
dispatching a statement, entering a function, leaving it and dropping a copy of the
environment preserve: `RunInvariant` collects these four.
-/

namespace Hinting

open Hinting.Action

namespace RunAction

theorem dispatch_eq_ok_iff {options : RunOptions} {a : Activation} {s : Statement}
    {state reached : RunState} {target : Option Label} :
    dispatch options a s state = .ok target reached ↔
      state.tally.executed < options.maxStatements ∧
        ∃ env, s.perform options.axisCount state.env = .ok target env ∧
          reached = ⟨env, (state.tally.addStep ⟨a.chain, a.tag, s, state.env, env⟩).observe
            env.stack⟩ := by
  unfold dispatch
  by_cases hBudget : options.maxStatements ≤ state.tally.executed
  · rw [if_pos hBudget]
    constructor
    · intro h
      cases h
    · rintro ⟨hLess, _⟩
      omega
  · rw [if_neg hBudget]
    cases hPerform : s.perform options.axisCount state.env with
    | ok result env =>
      constructor
      · intro h
        cases h
        exact ⟨by omega, env, rfl, rfl⟩
      · rintro ⟨_, env', hEnv, rfl⟩
        cases hEnv
        rfl
    | error fault env =>
      constructor
      · intro h
        cases h
      · rintro ⟨_, env', hEnv, _⟩
        cases hEnv

theorem dispatch_eq_error {options : RunOptions} {a : Activation} {s : Statement}
    {state reached : RunState} {e : ExecutionError}
    (h : dispatch options a s state = .error e reached) :
    (options.maxStatements ≤ state.tally.executed ∧ e = a.error s .exceededBudget ∧
        reached = state) ∨
      ∃ fault env, s.perform options.axisCount state.env = .error fault env ∧
        e = a.error s fault ∧
        reached = ⟨env, state.tally.addStep ⟨a.chain, a.tag, s, state.env, env⟩⟩ := by
  unfold dispatch at h
  by_cases hBudget : options.maxStatements ≤ state.tally.executed
  · rw [if_pos hBudget] at h
    cases h
    exact .inl ⟨hBudget, rfl, rfl⟩
  · rw [if_neg hBudget] at h
    cases hPerform : s.perform options.axisCount state.env with
    | ok target env =>
      rw [hPerform] at h
      cases h
    | error fault env =>
      rw [hPerform] at h
      cases h
      exact .inr ⟨fault, env, rfl, rfl, rfl⟩

theorem visit_eq_ok {options : RunOptions} {a : Activation}
    {call : (Fault → ExecutionError) → Label → RunAction Unit} {s : Statement}
    {state reached : RunState} (h : visit options a call s state = .ok () reached) :
    dispatch options a s state = .ok none reached ∨
      ∃ label between, dispatch options a s state = .ok (some label) between ∧
        call (a.error s) label between = .ok () reached := by
  obtain ⟨target, between, hDispatch, hRest⟩ := bind_eq_ok h
  cases target with
  | none =>
    cases hRest
    exact .inl hDispatch
  | some label => exact .inr ⟨label, between, hDispatch, hRest⟩

theorem visit_eq_error {options : RunOptions} {a : Activation}
    {call : (Fault → ExecutionError) → Label → RunAction Unit} {s : Statement}
    {state reached : RunState} {e : ExecutionError}
    (h : visit options a call s state = .error e reached) :
    dispatch options a s state = .error e reached ∨
      ∃ label between, dispatch options a s state = .ok (some label) between ∧
        call (a.error s) label between = .error e reached := by
  rcases bind_eq_error h with hDispatch | ⟨target, between, hDispatch, hRest⟩
  · exact .inl hDispatch
  · cases target with
    | none => cases hRest
    | some label => exact .inr ⟨label, between, hDispatch, hRest⟩

theorem visit_of_none {options : RunOptions} {a : Activation}
    {call : (Fault → ExecutionError) → Label → RunAction Unit} {s : Statement}
    {state reached : RunState} (h : dispatch options a s state = .ok none reached) :
    visit options a call s state = .ok () reached := by
  rw [visit, bind_apply, h]
  rfl

theorem visit_of_some {options : RunOptions} {a : Activation}
    {call : (Fault → ExecutionError) → Label → RunAction Unit} {s : Statement}
    {state reached : RunState} {label : Label}
    (h : dispatch options a s state = .ok (some label) reached) :
    visit options a call s state = call (a.error s) label reached := by
  rw [visit, bind_apply, h]

theorem onCopy_eq_ok {action : RunAction Unit} {state reached : RunState}
    (h : onCopy action state = .ok () reached) :
    ∃ last, action state = .ok () last ∧ reached = { last with env := state.env } := by
  unfold onCopy at h
  split at h
  · rename_i last hLast
    cases h
    exact ⟨last, hLast, rfl⟩
  · cases h

theorem onCopy_eq_error {action : RunAction Unit} {state reached : RunState} {e : ExecutionError}
    (h : onCopy action state = .error e reached) :
    ∃ last, action state = .error e last ∧ reached = { last with env := state.env } := by
  unfold onCopy at h
  split at h
  · cases h
  · rename_i e' last hLast
    cases h
    exact ⟨last, hLast, rfl⟩

theorem entering_eq_ok {label : Label} {action : RunAction Unit} {state reached : RunState}
    (h : entering label action state = .ok () reached) :
    ∃ last, action { state with tally := state.tally.openCall label } = .ok () last ∧
      reached = { last with tally := last.tally.closeCall label state.tally.trace } := by
  unfold entering at h
  split at h
  · rename_i last hLast
    cases h
    exact ⟨last, hLast, rfl⟩
  · cases h

theorem entering_eq_error {label : Label} {action : RunAction Unit} {state reached : RunState}
    {e : ExecutionError} (h : entering label action state = .error e reached) :
    ∃ last, action { state with tally := state.tally.openCall label } = .error e last ∧
      reached = { last with tally := last.tally.closeCall label state.tally.trace } := by
  unfold entering at h
  split at h
  · cases h
  · rename_i e' last hLast
    cases h
    exact ⟨last, hLast, rfl⟩

theorem entering_of_ok {label : Label} {action : RunAction Unit} {state reached : RunState}
    (h : action { state with tally := state.tally.openCall label } = .ok () reached) :
    entering label action state =
      .ok () { reached with tally := reached.tally.closeCall label state.tally.trace } := by
  rw [entering, h]

theorem entering_of_error {label : Label} {action : RunAction Unit} {state reached : RunState}
    {e : ExecutionError}
    (h : action { state with tally := state.tally.openCall label } = .error e reached) :
    entering label action state =
      .error e { reached with tally := reached.tally.closeCall label state.tally.trace } := by
  rw [entering, h]

/-- The run of a function that a call enters. -/
def enter (options : RunOptions) (program : String) (room : Nat) (chain : List Label)
    (label : Label) (d : Definition) : RunAction Unit :=
  entering label (d.body.block.run options.branchPolicy
    (visit options ⟨program, chain ++ [label], d.body.tag⟩
      (call options program room (chain ++ [label]))))

theorem call_eq_enter {options : RunOptions} {program : String} {room : Nat} {chain : List Label}
    {blame : Fault → ExecutionError} {label : Label} {state : RunState} {d : Definition}
    (hLookup : state.env.functions.get? label = some d)
    (hCycle : CallStack.cycle? chain label = none) :
    call options program (room + 1) chain blame label state =
      enter options program room chain label d state := by
  rw [call.eq_def]
  dsimp only
  rw [get_bind_apply, hLookup, hCycle]
  rfl

section Refused

variable {options : RunOptions} {program : String} {room : Nat} {chain : List Label}
  {blame : Fault → ExecutionError} {label : Label} {state : RunState}

theorem call_of_undefined (hLookup : state.env.functions.get? label = none) :
    call options program room chain blame label state =
      .error (blame (.undefinedFunction label)) state := by
  rw [call.eq_def]
  dsimp only
  rw [get_bind_apply, hLookup]
  rfl

theorem call_of_cycle {d : Definition} {cycle : List Label}
    (hLookup : state.env.functions.get? label = some d)
    (hCycle : CallStack.cycle? chain label = some cycle) :
    call options program room chain blame label state =
      .error (blame (.recursiveCall cycle)) state := by
  rw [call.eq_def]
  dsimp only
  rw [get_bind_apply, hLookup, hCycle]
  rfl

theorem call_of_full {d : Definition} (hLookup : state.env.functions.get? label = some d)
    (hCycle : CallStack.cycle? chain label = none) :
    call options program 0 chain blame label state =
      .error (blame (.callStackOverflow (chain ++ [label]))) state := by
  rw [call.eq_def]
  dsimp only
  rw [get_bind_apply, hLookup, hCycle]
  rfl

end Refused

theorem call_eq_ok {options : RunOptions} {program : String} {room : Nat} {chain : List Label}
    {blame : Fault → ExecutionError} {label : Label} {state reached : RunState}
    (h : call options program room chain blame label state = .ok () reached) :
    ∃ d inner, state.env.functions.get? label = some d ∧ CallStack.cycle? chain label = none ∧
      room = inner + 1 ∧ enter options program inner chain label d state = .ok () reached := by
  rw [call.eq_def] at h
  dsimp only at h
  rw [get_bind_apply] at h
  cases hLookup : state.env.functions.get? label with
  | none => rw [hLookup] at h; cases h
  | some d =>
    cases hCycle : CallStack.cycle? chain label with
    | some cycle => rw [hLookup, hCycle] at h; cases h
    | none =>
      cases room with
      | zero => rw [hLookup, hCycle] at h; cases h
      | succ inner =>
        rw [hLookup, hCycle] at h
        exact ⟨d, inner, rfl, rfl, rfl, h⟩

end RunAction

/-- What is true of the visits to the statements of a block is true of its run, if it is kept
when actions follow each other or work on a copy. -/
theorem Block.run_of_closed {Q : RunAction Unit → Prop} (hPure : Q (pure ()))
    (hSeq : ∀ x y, Q x → Q y → Q (x >>= fun _ => y)) (hCopy : ∀ x, Q x → Q (RunAction.onCopy x))
    (policy : BranchPolicy) {visit : Statement → RunAction Unit} (b : Block)
    (hVisit : ∀ s ∈ b.statements, Q (visit s)) : Q (b.run policy visit) := by
  induction b with
  | nil => exact hPure
  | step s rest ih =>
    simp only [statements, List.forall_mem_cons] at hVisit
    exact hSeq _ _ hVisit.1 (ih hVisit.2)
  | cond s thenArm eif rest ihThen ihRest =>
    simp only [statements, List.cons_append, List.forall_mem_cons, List.forall_mem_append] at hVisit
    obtain ⟨hIf, hThen, hEif, hRest⟩ := hVisit
    exact hSeq _ _ hIf (hSeq _ _ (ihThen hThen) (hSeq _ _ hEif (ihRest hRest)))
  | condElse s thenArm mid elseArm eif rest ihThen ihElse ihRest =>
    simp only [statements, List.cons_append, List.append_assoc, List.forall_mem_cons,
      List.forall_mem_append] at hVisit
    obtain ⟨hIf, hThen, hMid, hElse, hEif, hRest⟩ := hVisit
    have hTail := hSeq _ _ (ihThen hThen) (hSeq _ _ hEif (ihRest hRest))
    by_cases hPolicy : policy = .bothArms
    · simp only [run, if_pos hPolicy]
      exact hSeq _ _ hIf (hSeq _ _ (hCopy _ (hSeq _ _ hMid (ihElse hElse))) hTail)
    · simp only [run, if_neg hPolicy]
      exact hSeq _ _ hIf hTail

/-- What a run preserves because each of its parts does. -/
structure RunInvariant (options : RunOptions) (P : RunState → Prop) : Prop where
  dispatch : ∀ a s, Preserves P (RunAction.dispatch options a s)
  openCall : ∀ state label d, P state → state.env.functions.get? label = some d →
    P { state with tally := state.tally.openCall label }
  closeCall : ∀ state label outer, P state →
    P { state with tally := state.tally.closeCall label outer }
  dropCopy : ∀ state reached, P state → P reached → P { reached with env := state.env }

namespace RunInvariant

variable {options : RunOptions} {P : RunState → Prop}

theorem onCopy (h : RunInvariant options P) {action : RunAction Unit}
    (hAction : Preserves P action) :
    Preserves P (RunAction.onCopy action) := by
  intro state _ reached hState hOk
  obtain ⟨last, hLast, rfl⟩ := RunAction.onCopy_eq_ok hOk
  exact h.dropCopy state last hState (hAction state () last hState hLast)

theorem block (h : RunInvariant options P) (policy : BranchPolicy)
    {visit : Statement → RunAction Unit} (hVisit : ∀ s, Preserves P (visit s)) (b : Block) :
    Preserves P (b.run policy visit) :=
  b.run_of_closed (Q := Preserves P) (.pure P ()) (fun _ _ hx hy => hx.bind fun _ => hy)
    (fun _ => h.onCopy) policy fun s _ => hVisit s

theorem visit (h : RunInvariant options P) (a : Activation)
    {call : (Fault → ExecutionError) → Label → RunAction Unit}
    (hCall : ∀ blame label, Preserves P (call blame label)) (s : Statement) :
    Preserves P (RunAction.visit options a call s) := by
  intro state _ reached hState hOk
  rcases RunAction.visit_eq_ok hOk with hDispatch | ⟨label, between, hDispatch, hRest⟩
  · exact h.dispatch a s state none reached hState hDispatch
  · exact hCall _ label between () reached
      (h.dispatch a s state (some label) between hState hDispatch) hRest

theorem call (h : RunInvariant options P) (program : String) (room : Nat) (chain : List Label)
    (blame : Fault → ExecutionError) (label : Label) :
    Preserves P (RunAction.call options program room chain blame label) := by
  -- the room falls with every call entered
  induction room generalizing chain blame label with
  | zero =>
    intro state _ reached _ hOk
    obtain ⟨d, inner, _, _, hRoom, _⟩ := RunAction.call_eq_ok hOk
    cases hRoom
  | succ room ih =>
    intro state _ reached hState hOk
    obtain ⟨d, inner, hLookup, _, hRoom, hEnter⟩ := RunAction.call_eq_ok hOk
    cases hRoom
    obtain ⟨last, hLast, rfl⟩ := RunAction.entering_eq_ok hEnter
    have hBody : Preserves P (d.body.block.run options.branchPolicy
        (RunAction.visit options ⟨program, chain ++ [label], d.body.tag⟩
          (RunAction.call options program room (chain ++ [label])))) :=
      h.block _ (h.visit _ fun blame label => ih _ blame label) _
    exact h.closeCall last label _
      (hBody _ () last (h.openCall state label d hState hLookup) hLast)

theorem body (h : RunInvariant options P) (program : String) (b : Body) :
    Preserves P (RunAction.body options program b) :=
  h.block _ (h.visit _ fun blame label => h.call program _ _ blame label) _

end RunInvariant

theorem Tally.trace_closeCall (t : Tally) {events : List Event} (h : t.trace = events.reverse ++ [])
    (label : Label) (outer : List Event) :
    (t.closeCall label outer).trace = [Event.call label events].reverse ++ outer := by
  rw [Tally.closeCall, h, List.append_nil, List.reverse_reverse]
  rfl

theorem Font.run_program (font : Font) (options : RunOptions) (tag : String)
    (env : Environment) : (font.run options tag env).program = tag := by
  unfold Font.run
  split
  · rfl
  · split <;> rfl

/-- The run of a program that has come to its end. -/
def RunState.finished (s : RunState) (tag : String) : Run where
  program := tag
  result := .ok s.tally.called
  env := s.env
  executed := s.tally.executed
  calls := s.tally.calls
  peak := s.tally.peak
  trace := s.tally.trace.reverse

theorem Font.run_eq_finished {font : Font} {options : RunOptions} {tag : String}
    {env : Environment} {called : LabelSet} (h : (font.run options tag env).result = .ok called) :
    ∃ program state, font.programs.get? tag = some program ∧
      RunAction.body options tag program.body { env } = .ok () state ∧
      font.run options tag env = state.finished tag := by
  unfold Font.run at h ⊢
  cases hProgram : font.programs.get? tag with
  | none => rw [hProgram] at h; cases h
  | some program =>
    simp only [hProgram] at h ⊢
    cases hBody : RunAction.body options tag program.body { env } with
    | error error state => rw [hBody] at h; cases h
    | ok _ state => exact ⟨program, state, rfl, hBody, rfl⟩

/-- The run of a program that was stopped. -/
def RunState.stopped (s : RunState) (tag : String) (error : ExecutionError) : Run :=
  { s.finished tag with result := .error error }

theorem Font.run_of_unknown {font : Font} {options : RunOptions} {tag : String}
    {env : Environment} (h : font.programs.get? tag = none) :
    font.run options tag env =
      { program := tag, result := .error ⟨tag, none, none, .unknownProgram tag⟩, env } := by
  simp only [Font.run, h]

theorem Font.run_of_ok {font : Font} {options : RunOptions} {tag : String} {env : Environment}
    {program : Program} {state : RunState} (hProgram : font.programs.get? tag = some program)
    (hBody : RunAction.body options tag program.body { env } = .ok () state) :
    font.run options tag env = state.finished tag := by
  simp only [Font.run, hProgram, hBody]
  rfl

theorem Font.run_of_error {font : Font} {options : RunOptions} {tag : String} {env : Environment}
    {program : Program} {state : RunState} {error : ExecutionError}
    (hProgram : font.programs.get? tag = some program)
    (hBody : RunAction.body options tag program.body { env } = .error error state) :
    font.run options tag env = state.stopped tag error := by
  simp only [Font.run, hProgram, hBody]
  rfl

end Hinting
