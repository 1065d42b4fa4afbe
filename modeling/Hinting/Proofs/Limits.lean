import Hinting.Proofs.RunStep

/-!
# Limits of a run

The options limit how many statements a run may apply and how deep calls may be nested. A
run that succeeds has applied a number of statements and has nested its calls to a depth.
Under any limits that leave room for both it does exactly the same. Under all others it is
stopped by one of the limits.
-/

namespace Hinting

open Hinting.Action

namespace Event

mutual

def depth : Event → Nat
  | .step _ => 0
  | .call _ trace => maxDepth trace + 1

/-- How many functions are being executed at the same time, at most. -/
def maxDepth : List Event → Nat
  | [] => 0
  | event :: rest => max event.depth (maxDepth rest)

end

@[simp]
theorem maxDepth_append (trace later : List Event) :
    maxDepth (trace ++ later) = max (maxDepth trace) (maxDepth later) := by
  induction trace with
  | nil => simp [maxDepth]
  | cons event rest ih => rw [List.cons_append, maxDepth, maxDepth, ih, Nat.max_assoc]

end Event

/-- The options with other limits. -/
def RunOptions.within (options : RunOptions) (statements depth : Nat) : RunOptions :=
  { options with maxStatements := statements, maxCallDepth := depth }

/-- The faults of runs that are stopped by a limit. -/
inductive Fault.IsLimit : Fault → Prop
  | exceededBudget : IsLimit .exceededBudget
  | callStackOverflow (chain : List Label) : IsLimit (.callStackOverflow chain)

/-- A part of a run that ends in `t` after the given events keeps to the limits. -/
def Keeps (statements room : Nat) (t : RunState) (events : List Event) : Prop :=
  t.tally.executed ≤ statements ∧ Event.maxDepth events ≤ room

/-- `y` is the part `x` of a run under other limits. It does what `x` does where that keeps
to the limits, and is stopped by one of them otherwise. -/
def Limited {α : Type} (statements room : Nat) (x y : RunAction α) : Prop :=
  ∀ s a t, x s = .ok a t → ∃ events,
    t.tally.trace = events.reverse ++ s.tally.trace ∧ s.tally.executed ≤ t.tally.executed ∧
    (s.tally.executed ≤ statements →
      Keeps statements room t events ∧ y s = .ok a t ∨
      ¬Keeps statements room t events ∧ ∃ error u, y s = .error error u ∧ error.fault.IsLimit)

namespace Limited

variable {α β : Type} {statements room : Nat}

theorem pure (a : α) : Limited statements room (pure a) (pure a) := by
  intro s _ t h
  cases h
  exact ⟨[], rfl, Nat.le_refl _, fun hStart => .inl ⟨⟨hStart, Nat.zero_le room⟩, rfl⟩⟩

theorem bind {x y : RunAction α} {f g : α → RunAction β} (h : Limited statements room x y)
    (h' : ∀ a, Limited statements room (f a) (g a)) :
    Limited statements room (x >>= f) (y >>= g) := by
  intro s b t hOk
  obtain ⟨a, between, hFirst, hRest⟩ := bind_eq_ok hOk
  obtain ⟨events, hTrace, hGrows, hEnds⟩ := h s a between hFirst
  obtain ⟨later, hTrace', hGrows', hEnds'⟩ := h' a between b t hRest
  have hKeeps : Keeps statements room t (events ++ later) ↔
      Keeps statements room between events ∧ Keeps statements room t later := by
    simp only [Keeps, Event.maxDepth_append, Nat.max_le]
    omega
  refine ⟨events ++ later, by rw [hTrace', hTrace, List.reverse_append, List.append_assoc],
    Nat.le_trans hGrows hGrows', fun hStart => ?_⟩
  rw [hKeeps, bind_apply]
  rcases hEnds hStart with ⟨hKept, hSame⟩ | ⟨hBroken, error, u, hStopped, hLimit⟩
  · rw [hSame]
    rcases hEnds' hKept.1 with ⟨hKept', hSame'⟩ | ⟨hBroken, hStopped⟩
    · exact .inl ⟨⟨hKept, hKept'⟩, hSame'⟩
    · exact .inr ⟨fun hBoth => hBroken hBoth.2, hStopped⟩
  · rw [hStopped]
    exact .inr ⟨fun hBoth => hBroken hBoth.1, error, u, rfl, hLimit⟩

theorem onCopy {x y : RunAction Unit} (h : Limited statements room x y) :
    Limited statements room (RunAction.onCopy x) (RunAction.onCopy y) := by
  intro s _ t hOk
  obtain ⟨last, hLast, rfl⟩ := RunAction.onCopy_eq_ok hOk
  obtain ⟨events, hTrace, hGrows, hEnds⟩ := h s () last hLast
  refine ⟨events, hTrace, hGrows, fun hStart => ?_⟩
  rcases hEnds hStart with ⟨hKept, hSame⟩ | ⟨hBroken, error, u, hStopped, hLimit⟩
  · exact .inl ⟨hKept, by rw [RunAction.onCopy, hSame]⟩
  · exact .inr ⟨hBroken, error, { u with env := s.env }, by rw [RunAction.onCopy, hStopped], hLimit⟩

theorem block {visit visit' : Statement → RunAction Unit}
    (hVisit : ∀ s, Limited statements room (visit s) (visit' s)) (policy : BranchPolicy)
    (b : Block) : Limited statements room (b.run policy visit) (b.run policy visit') := by
  induction b with
  | nil => exact pure ()
  | step s rest ih => exact (hVisit s).bind fun _ => ih
  | cond s thenArm eif rest ihThen ihRest =>
    exact (hVisit s).bind fun _ => ihThen.bind fun _ => (hVisit eif).bind fun _ => ihRest
  | condElse s thenArm mid elseArm eif rest ihThen ihElse ihRest =>
    have hTail := ihThen.bind fun _ => (hVisit eif).bind fun _ => ihRest
    by_cases hPolicy : policy = .bothArms
    · simp only [Block.run, if_pos hPolicy]
      exact (hVisit s).bind fun _ =>
        (onCopy ((hVisit mid).bind fun _ => ihElse)).bind fun _ => hTail
    · simp only [Block.run, if_neg hPolicy]
      exact (hVisit s).bind fun _ => hTail

variable {options : RunOptions}

theorem dispatch (depth : Nat) (a : Activation) (s : Statement) :
    Limited statements room (RunAction.dispatch options a s)
      (RunAction.dispatch (options.within statements depth) a s) := by
  intro state target reached hOk
  obtain ⟨_, env, hPerform, rfl⟩ := RunAction.dispatch_eq_ok_iff.mp hOk
  refine ⟨[.step ⟨a.chain, a.tag, s, state.env, env⟩], rfl, Nat.le_succ _, fun _ => ?_⟩
  by_cases hBudget : state.tally.executed < statements
  · exact .inl ⟨⟨hBudget, Nat.zero_le room⟩,
      RunAction.dispatch_eq_ok_iff.mpr ⟨hBudget, env, hPerform, rfl⟩⟩
  · exact .inr ⟨fun hKept => hBudget hKept.1, a.error s .exceededBudget, state,
      if_pos (Nat.not_lt.mp hBudget), .exceededBudget⟩

theorem visit (depth : Nat) (a : Activation)
    {call call' : (Fault → ExecutionError) → Label → RunAction Unit}
    (hCall : ∀ blame label, (∀ fault, (blame fault).fault = fault) →
      Limited statements room (call blame label) (call' blame label)) (s : Statement) :
    Limited statements room (RunAction.visit options a call s)
      (RunAction.visit (options.within statements depth) a call' s) := by
  refine (dispatch depth a s).bind fun target => ?_
  cases target with
  | none => exact pure ()
  | some label => exact hCall (a.error s) label fun _ => rfl

theorem entering {x y : RunAction Unit} (h : Limited statements room x y) (label : Label) :
    Limited statements (room + 1) (RunAction.entering label x) (RunAction.entering label y) := by
  intro s _ t hOk
  obtain ⟨last, hLast, rfl⟩ := RunAction.entering_eq_ok hOk
  obtain ⟨events, hTrace, hGrows, hEnds⟩ := h _ () last hLast
  have hKeeps : Keeps statements (room + 1)
      { last with tally := last.tally.closeCall label s.tally.trace } [.call label events] ↔
      Keeps statements room last events := by
    simp only [Keeps, Tally.closeCall, Event.maxDepth, Event.depth]
    omega
  refine ⟨[.call label events], last.tally.trace_closeCall hTrace label _, hGrows, fun hStart => ?_⟩
  rw [hKeeps]
  rcases hEnds hStart with ⟨hKept, hSame⟩ | ⟨hBroken, error, u, hStopped, hLimit⟩
  · exact .inl ⟨hKept, RunAction.entering_of_ok hSame⟩
  · exact .inr ⟨hBroken, error, _, RunAction.entering_of_error hStopped, hLimit⟩

theorem call (depth : Nat) (program : String) (own : Nat) (chain : List Label)
    (blame : Fault → ExecutionError) (label : Label)
    (hBlame : ∀ fault, (blame fault).fault = fault) :
    Limited statements room (RunAction.call options program own chain blame label)
      (RunAction.call (options.within statements depth) program room chain blame label) := by
  -- both rooms fall with every call entered; the second one may be used up first
  induction own generalizing room chain blame label with
  | zero =>
    intro state _ reached hOk
    obtain ⟨d, inner, _, _, hRoom, _⟩ := RunAction.call_eq_ok hOk
    cases hRoom
  | succ own ih =>
    intro state _ reached hOk
    obtain ⟨d, inner, hLookup, hCycle, hRoom, hEnter⟩ := RunAction.call_eq_ok hOk
    cases hRoom
    have hBody (room : Nat) : Limited statements room
        (d.body.block.run options.branchPolicy
          (RunAction.visit options ⟨program, chain ++ [label], d.body.tag⟩
            (RunAction.call options program own (chain ++ [label])))) _ :=
      block (visit depth _ (ih (chain ++ [label]))) _ _
    cases room with
    | zero =>
      obtain ⟨last, hLast, rfl⟩ := RunAction.entering_eq_ok hEnter
      obtain ⟨events, hTrace, hGrows, _⟩ := hBody 0 _ () last hLast
      refine ⟨[.call label events], last.tally.trace_closeCall hTrace label _, hGrows,
        fun _ => .inr ⟨fun hKept => absurd hKept.2 (by simp [Event.maxDepth, Event.depth]), ?_⟩⟩
      refine ⟨_, _, RunAction.call_of_full hLookup hCycle, ?_⟩
      rw [hBlame]
      exact .callStackOverflow _
    | succ room =>
      rw [RunAction.call_eq_enter hLookup hCycle]
      exact (hBody room).entering label state () reached hEnter

theorem body (depth : Nat) (program : String) (b : Body) :
    Limited statements depth (RunAction.body options program b)
      (RunAction.body (options.within statements depth) program b) :=
  block (visit depth ⟨program, [], b.tag⟩ (call depth program _ [])) _ _

end Limited

theorem Font.run_within_limits {font : Font} {options : RunOptions} {tag : String}
    {env : Environment} {called : LabelSet}
    (h : (font.run options tag env).result = .ok called) (statements depth : Nat) :
    ((font.run options tag env).executed ≤ statements ∧
        Event.maxDepth (font.run options tag env).trace ≤ depth ∧
        font.run (options.within statements depth) tag env = font.run options tag env) ∨
      ¬((font.run options tag env).executed ≤ statements ∧
          Event.maxDepth (font.run options tag env).trace ≤ depth) ∧
        ∃ error, (font.run (options.within statements depth) tag env).result = .error error ∧
          error.fault.IsLimit := by
  obtain ⟨program, state, hProgram, hBody, hRun⟩ := run_eq_finished h
  have hLimited : Limited statements depth (RunAction.body options tag program.body) _ :=
    .body depth tag program.body
  obtain ⟨events, hTrace, _, hEnds⟩ := hLimited _ () state hBody
  have hEvents : (state.finished tag).trace = events := by
    rw [RunState.finished, hTrace]
    simp
  rw [hRun, hEvents]
  rcases hEnds (Nat.zero_le statements) with ⟨hKept, hSame⟩ | ⟨hBroken, error, u, hStopped, hLimit⟩
  · exact .inl ⟨hKept.1, hKept.2, run_of_ok hProgram hSame⟩
  · refine .inr ⟨hBroken, error, ?_, hLimit⟩
    rw [run_of_error hProgram hStopped]
    rfl

/-- The session with other limits. -/
def Session.within (session : Session) (statements depth : Nat) : Session :=
  { session with options := session.options.within statements depth }

/-- A run that succeeds is repeated exactly under the limits that leave room for its statements
and for its calls, and stopped by a limit under all others. -/
theorem Session.execute_within_iff (session : Session) (font : Font) (tag : String)
    (env : Environment) {called : LabelSet}
    (hOk : (session.execute font tag env).1.result = .ok called) (statements depth : Nat) :
    ((session.within statements depth).execute font tag env =
        ((session.execute font tag env).1,
          (session.execute font tag env).2.within statements depth) ↔
      (session.execute font tag env).1.executed ≤ statements ∧
        Event.maxDepth (session.execute font tag env).1.trace ≤ depth) ∧
    (¬((session.execute font tag env).1.executed ≤ statements ∧
        Event.maxDepth (session.execute font tag env).1.trace ≤ depth) →
      ∃ error, ((session.within statements depth).execute font tag env).1.result = .error error ∧
        error.fault.IsLimit) := by
  rcases Font.run_within_limits hOk statements depth with
    ⟨hExecuted, hDepth, hSame⟩ | ⟨hBroken, error, hStopped, hLimit⟩
  · refine ⟨⟨fun _ => ⟨hExecuted, hDepth⟩, fun _ => ?_⟩,
      fun hBroken => absurd ⟨hExecuted, hDepth⟩ hBroken⟩
    simp only [execute, within, add, hSame]
  · refine ⟨⟨fun hSame => ?_, fun hKept => absurd hKept hBroken⟩,
      fun _ => ⟨error, hStopped, hLimit⟩⟩
    have hResult := congrArg (·.1.result) hSame
    rw [hOk] at hResult
    rw [execute, within, hStopped] at hResult
    cases hResult

/-- The ELSE arm nests its calls deeper than the THEN arm, down to a function without any
statement, so that one level less stops the run although the arm's results are dropped. -/
theorem Session.execute_within_iff_deeper_else :
    ∃ (session : Session) (font : Font) (called : LabelSet) (run : Run),
      session.options.branchPolicy = .bothArms ∧
      Font.load
        [("fpgm", "PUSHB[ ] 1 0 FDEF[ ] PUSHB[ ] 1 CALL[ ] ENDF[ ] FDEF[ ] ENDF[ ]"),
          ("A", "MPPEM[ ] IF[ ] PUSHB[ ] 1 CALL[ ] ELSE[ ] PUSHB[ ] 0 CALL[ ] EIF[ ]")]
        [] = .ok font ∧
      session.execute font "A" font.initialEnvironment = (run, session.add run) ∧
      run.result = .ok called ∧ run.executed = 10 ∧ Event.maxDepth run.trace = 2 ∧
      (session.within 10 2).execute font "A" font.initialEnvironment =
        (run, (session.add run).within 10 2) ∧
      (∃ error, ((session.within 9 2).execute font "A" font.initialEnvironment).1.result =
        .error error ∧ error.fault.IsLimit) ∧
      ∃ error, ((session.within 10 1).execute font "A" font.initialEnvironment).1.result =
        .error error ∧ error.fault.IsLimit := by
  let session : Session := { options := { branchPolicy := .bothArms } }
  have hEvaluated : ((Font.load
      [("fpgm", "PUSHB[ ] 1 0 FDEF[ ] PUSHB[ ] 1 CALL[ ] ENDF[ ] FDEF[ ] ENDF[ ]"),
        ("A", "MPPEM[ ] IF[ ] PUSHB[ ] 1 CALL[ ] ELSE[ ] PUSHB[ ] 0 CALL[ ] EIF[ ]")]
      []).toOption.bind fun font =>
        (session.execute font "A" font.initialEnvironment).1.result.toOption.map fun _ =>
          ((session.execute font "A" font.initialEnvironment).1.executed,
            Event.maxDepth (session.execute font "A" font.initialEnvironment).1.trace)) =
      some (10, 2) := by
    decide +kernel
  obtain ⟨font, hFont, hRest⟩ := Option.bind_eq_some_iff.mp hEvaluated
  obtain ⟨called, hResult, hNumbers⟩ := Option.map_eq_some_iff.mp hRest
  obtain ⟨hExecuted, hDepth⟩ := Prod.mk.inj hNumbers
  have hOk := eq_ok_of_toOption hResult
  have hLimits := session.execute_within_iff font "A" font.initialEnvironment hOk
  rw [hExecuted, hDepth] at hLimits
  exact ⟨session, font, called, (session.execute font "A" font.initialEnvironment).1, rfl,
    eq_ok_of_toOption hFont, rfl, hOk, hExecuted, hDepth, (hLimits 10 2).1.mpr (by decide),
    (hLimits 9 2).2 (by decide), (hLimits 10 1).2 (by decide)⟩

end Hinting
