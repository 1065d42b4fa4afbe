import Hinting.Proofs.GlyphOrder
import Hinting.Proofs.Nesting
import Hinting.Proofs.StatementEffects

/-!
# The peak of an analysis

A run records the peak of its stack after every statement. An ELSE arm works on a copy that
has the peak of its original, and a glyph program starts with the peak that the control value
program has left, so each record stands for depths of earlier statements too. All of them are
depths after some statement of the analysis: its peak is the largest of these.
-/

namespace Hinting

open Hinting.Action

/-- What every part of a run that succeeds does, because dispatching a statement does: a relation
between the state before it, the state after it and the events it adds to the trace. -/
structure RunRelation (options : RunOptions) (R : RunState → RunState → List Event → Prop) :
    Prop where
  refl : ∀ s, R s s []
  trans : ∀ s t u events later, R s t events → R t u later → R s u (events ++ later)
  dispatch : ∀ a statement s target t, RunAction.dispatch options a statement s = .ok target t →
    R s t [.step ⟨a.chain, a.tag, statement, s.env, t.env⟩]
  dropCopy : ∀ s t events, R s t events → R s { t with env := s.env } events
  entering : ∀ s t label events, R { s with tally := s.tally.openCall label } t events →
    R s { t with tally := t.tally.closeCall label s.tally.trace } [.call label events]

/-- The part of a run takes every state to a related one. -/
def Relates {α : Type} (R : RunState → RunState → List Event → Prop) (x : RunAction α) : Prop :=
  ∀ s a t, x s = .ok a t → ∃ events, R s t events

namespace RunRelation

variable {α β : Type} {options : RunOptions} {R : RunState → RunState → List Event → Prop}

theorem bind (h : RunRelation options R) {x : RunAction α} {f : α → RunAction β}
    (hx : Relates R x) (hf : ∀ a, Relates R (f a)) : Relates R (x >>= f) := by
  intro s b u hOk
  obtain ⟨a, t, hFirst, hRest⟩ := bind_eq_ok hOk
  obtain ⟨events, hEvents⟩ := hx s a t hFirst
  obtain ⟨later, hLater⟩ := hf a t b u hRest
  exact ⟨events ++ later, h.trans s t u events later hEvents hLater⟩

theorem onCopy (h : RunRelation options R) {x : RunAction Unit} (hx : Relates R x) :
    Relates R (RunAction.onCopy x) := by
  intro s _ t hOk
  obtain ⟨last, hLast, rfl⟩ := RunAction.onCopy_eq_ok hOk
  obtain ⟨events, hEvents⟩ := hx s () last hLast
  exact ⟨events, h.dropCopy s last events hEvents⟩

theorem block (h : RunRelation options R) {visit : Statement → RunAction Unit}
    (hVisit : ∀ s, Relates R (visit s)) (policy : BranchPolicy) (b : Block) :
    Relates R (b.run policy visit) := by
  refine b.run_of_closed (Q := Relates R) ?_ (fun _ _ hx hy => h.bind hx fun _ => hy)
    (fun _ => h.onCopy) policy fun s _ => hVisit s
  intro s _ t hOk
  cases hOk
  exact ⟨[], h.refl s⟩

theorem visit (h : RunRelation options R) (a : Activation)
    {call : (Fault → ExecutionError) → Label → RunAction Unit}
    (hCall : ∀ blame label, Relates R (call blame label)) (s : Statement) :
    Relates R (RunAction.visit options a call s) := by
  apply h.bind
  · intro state target reached hOk
    exact ⟨_, h.dispatch a s state target reached hOk⟩
  · rintro (_ | label)
    · intro state _ reached hOk
      cases hOk
      exact ⟨[], h.refl state⟩
    · exact hCall _ label

theorem call (h : RunRelation options R) (program : String) (room : Nat) (chain : List Label)
    (blame : Fault → ExecutionError) (label : Label) :
    Relates R (RunAction.call options program room chain blame label) := by
  -- the room falls with every call entered
  induction room generalizing chain blame label with
  | zero =>
    intro s _ t hOk
    obtain ⟨d, inner, _, _, hRoom, _⟩ := RunAction.call_eq_ok hOk
    cases hRoom
  | succ room ih =>
    intro s _ t hOk
    obtain ⟨d, inner, _, _, hRoom, hEnter⟩ := RunAction.call_eq_ok hOk
    cases hRoom
    obtain ⟨last, hLast, rfl⟩ := RunAction.entering_eq_ok hEnter
    have hBody := h.block (h.visit ⟨program, chain ++ [label], d.body.tag⟩ (ih (chain ++ [label])))
      options.branchPolicy d.body.block
    obtain ⟨events, hEvents⟩ := hBody _ () last hLast
    exact ⟨[.call label events], h.entering s last label events hEvents⟩

theorem body (h : RunRelation options R) (program : String) (b : Body) :
    Relates R (RunAction.body options program b) :=
  h.block (h.visit _ (h.call program _ _)) options.branchPolicy b.block

end RunRelation

/-- The stack depths after the statements of a trace, in order. -/
def Event.depths (trace : List Event) : List Nat :=
  (allSteps trace).map fun step => step.after.stack.depth

@[simp]
theorem Event.depths_append (trace later : List Event) :
    depths (trace ++ later) = depths trace ++ depths later := by
  simp [depths]

@[simp]
theorem Event.depths_call (label : Label) (trace : List Event) :
    depths [.call label trace] = depths trace := by
  simp [depths]

/-- The statement came to its end with the environment on record. -/
def Step.Succeeded (axisCount : Nat) (s : Step) : Prop :=
  ∃ target, s.statement.perform axisCount s.before = .ok target s.after

/-- How a part of a run takes the state `s` to the state `t`: the peaks of `t` are those of `s` or
depths after statements in between. -/
structure RunState.Climbs (axisCount : Nat) (s t : RunState) (events : List Event) : Prop where
  trace : t.tally.trace = events.reverse ++ s.tally.trace
  succeeded : ∀ step ∈ Event.allSteps events, step.Succeeded axisCount
  sound : t.env.stack.Sound
  stack : t.env.stack.peak ≤ max s.env.stack.peak (largest (Event.depths events))
  grows : s.tally.peak ≤ t.tally.peak
  covers : largest (Event.depths events) ≤ t.tally.peak
  covered : t.tally.peak ≤
    max (max s.tally.peak s.env.stack.peak) (largest (Event.depths events))

namespace RunState.Climbs

variable {axisCount : Nat} {s t u : RunState} {events later : List Event}

theorem refl (h : s.env.stack.Sound) : s.Climbs axisCount s [] where
  trace := rfl
  succeeded _ hStep := by cases hStep
  sound := h
  stack := Nat.le_max_left _ _
  grows := Nat.le_refl _
  covers := Nat.zero_le _
  covered := Nat.le_trans (Nat.le_max_left _ _) (Nat.le_max_left _ _)

theorem trans (h : s.Climbs axisCount t events) (h' : t.Climbs axisCount u later) :
    s.Climbs axisCount u (events ++ later) := by
  have hDepths : largest (Event.depths (events ++ later)) =
      max (largest (Event.depths events)) (largest (Event.depths later)) := by
    simp
  refine ⟨?_, ?_, h'.sound, ?_, Nat.le_trans h.grows h'.grows, ?_, ?_⟩
  · rw [h'.trace, h.trace, List.reverse_append, List.append_assoc]
  · rw [Event.allSteps_append, List.forall_mem_append]
    exact ⟨h.succeeded, h'.succeeded⟩
  · have hStack := h.stack
    have hStack' := h'.stack
    omega
  · have hCovers := h.covers
    have hCovers' := h'.covers
    have hGrows := h'.grows
    omega
  · have hStack := h.stack
    have hCovered := h.covered
    have hCovered' := h'.covered
    omega

theorem dispatch {options : RunOptions} {a : Activation} {statement : Statement}
    {target : Option Label} (hSound : s.env.stack.Sound)
    (hOk : RunAction.dispatch options a statement s = .ok target t) :
    s.Climbs options.axisCount t [.step ⟨a.chain, a.tag, statement, s.env, t.env⟩] := by
  obtain ⟨_, env, hPerform, rfl⟩ := RunAction.dispatch_eq_ok_iff.mp hOk
  have hTurns := statement.perform_turns options.axisCount s.env
  rw [hPerform] at hTurns
  have hPeak : env.stack.peak = max s.env.stack.peak env.stack.depth := hTurns hSound
  have hDepths : largest (Event.depths
      [.step ⟨a.chain, a.tag, statement, s.env, env⟩]) = env.stack.depth := rfl
  have hRecord : ((s.tally.addStep ⟨a.chain, a.tag, statement, s.env, env⟩).observe
      env.stack).peak = max s.tally.peak env.stack.peak := rfl
  refine ⟨rfl, ?_, hTurns.sound hSound, ?_, ?_, ?_, ?_⟩
  · rw [Event.allSteps_step, Event.allSteps_nil, List.forall_mem_singleton]
    exact ⟨target, hPerform⟩
  · rw [hDepths]
    exact Nat.le_of_eq hPeak
  · rw [hRecord]
    exact Nat.le_max_left _ _
  · rw [hDepths, hRecord]
    omega
  · rw [hDepths, hRecord]
    omega

theorem dropCopy (hSound : s.env.stack.Sound) (h : s.Climbs axisCount t events) :
    s.Climbs axisCount { t with env := s.env } events :=
  { h with sound := hSound, stack := Nat.le_max_left _ _ }

theorem entering {label : Label}
    (h : RunState.Climbs axisCount { s with tally := s.tally.openCall label } t events) :
    s.Climbs axisCount { t with tally := t.tally.closeCall label s.tally.trace }
      [.call label events] := by
  refine ⟨t.tally.trace_closeCall h.trace label _, ?_, h.sound, ?_, h.grows, ?_, ?_⟩
  · simpa using h.succeeded
  · simpa using h.stack
  · simpa [Tally.closeCall] using h.covers
  · simpa [Tally.openCall, Tally.closeCall] using h.covered

end RunState.Climbs

theorem runRelation_climbs (options : RunOptions) :
    RunRelation options fun s t events =>
      s.env.stack.Sound → s.Climbs options.axisCount t events where
  refl _ hSound := .refl hSound
  trans _ _ _ _ _ h h' hSound := (h hSound).trans (h' (h hSound).sound)
  dispatch _ _ _ _ _ hOk hSound := .dispatch hSound hOk
  dropCopy _ _ _ h hSound := (h hSound).dropCopy hSound
  entering _ _ _ _ h hSound := (h hSound).entering

/-- What a run that has started in `env` says about the depths of its stack. -/
structure Run.Climbs (axisCount : Nat) (env : Environment) (r : Run) : Prop where
  succeeded : ∀ step ∈ Event.allSteps r.trace, step.Succeeded axisCount
  stack : r.env.stack.peak ≤ max env.stack.peak (largest (Event.depths r.trace))
  covers : largest (Event.depths r.trace) ≤ r.peak
  covered : r.peak ≤ max env.stack.peak (largest (Event.depths r.trace))

namespace Font

variable {font : Font} {options : RunOptions} {glyphs : Option (List String)} {a : Analysis}

theorem run_climbs {tag : String} {env : Environment} {called : LabelSet}
    (hOk : (font.run options tag env).result = .ok called) (hSound : env.stack.Sound) :
    (font.run options tag env).Climbs options.axisCount env := by
  obtain ⟨program, state, _, hBody, hRun⟩ := run_eq_finished hOk
  obtain ⟨events, hEvents⟩ := (runRelation_climbs options).body tag program.body _ () state hBody
  have hClimbs := hEvents hSound
  have hTrace : (state.finished tag).trace = events := by
    rw [RunState.finished, hClimbs.trace, List.append_nil, List.reverse_reverse]
  have hCovered := hClimbs.covered
  rw [Nat.zero_max] at hCovered
  rw [hRun]
  constructor
  · rw [hTrace]
    exact hClimbs.succeeded
  · rw [hTrace]
    exact hClimbs.stack
  · rw [hTrace]
    exact hClimbs.covers
  · rw [hTrace]
    exact hCovered

/-- The statements applied in an analysis, in order. -/
def analysisSteps (font : Font) (options : RunOptions) (glyphs : Option (List String)) :
    List Step :=
  (font.analysisRuns options (font.controlValueRun? options) glyphs).flatMap fun run =>
    Event.allSteps run.trace

theorem analysisSteps_of_analyze (h : font.analyze glyphs options = .ok a) :
    font.analysisSteps options glyphs =
      (font.plannedRuns options glyphs).flatMap fun run => Event.allSteps run.trace := by
  rw [analysisSteps, analysisRuns_of_analyze h]
  rfl

theorem largest_depths_le_of_mem {runs : List Run} {run : Run} (h : run ∈ runs) :
    largest (Event.depths run.trace) ≤
      largest (runs.flatMap fun run => Event.depths run.trace) := by
  apply largest_le
  intro depth hDepth
  exact le_largest (List.mem_flatMap.mpr ⟨run, h, hDepth⟩)

theorem climbs_of_controlValueRun? (h : font.analyze glyphs options = .ok a) {run : Run}
    (hRun : font.controlValueRun? options = some run) :
    run.Climbs options.axisCount font.initialEnvironment := by
  obtain ⟨called, hOk⟩ := succeeded_of_analyze h run
    (List.mem_append_left _ (Option.mem_toList.mpr hRun))
  unfold controlValueRun? at hRun
  split at hRun
  · cases hRun
    exact run_climbs hOk (Nat.le_refl 0)
  · cases hRun

/-- Glyph programs start below the depths of the control value program. -/
theorem peak_glyphEnvironment_le (h : font.analyze glyphs options = .ok a) :
    (font.glyphEnvironment (font.controlValueRun? options)).stack.peak ≤
      largest ((font.plannedRuns options glyphs).flatMap fun run => Event.depths run.trace) := by
  cases hRun : font.controlValueRun? options with
  | none => exact Nat.zero_le _
  | some run =>
    have hMem : run ∈ font.plannedRuns options glyphs :=
      List.mem_append_left _ (Option.mem_toList.mpr hRun)
    have hStack := (climbs_of_controlValueRun? h hRun).stack
    have hInitial : font.initialEnvironment.stack.peak = 0 := rfl
    rw [hInitial, Nat.zero_max] at hStack
    exact Nat.le_trans hStack (largest_depths_le_of_mem hMem)

/-- Every run of an analysis starts below the depths of the whole analysis. -/
theorem exists_climbs_of_mem_plannedRuns (h : font.analyze glyphs options = .ok a) {run : Run}
    (hRun : run ∈ font.plannedRuns options glyphs) :
    ∃ env, run.Climbs options.axisCount env ∧ env.stack.peak ≤
      largest ((font.plannedRuns options glyphs).flatMap fun run => Event.depths run.trace) := by
  rcases List.mem_append.mp hRun with hControl | hGlyph
  · exact ⟨_, climbs_of_controlValueRun? h (Option.mem_toList.mp hControl), Nat.zero_le _⟩
  · obtain ⟨called, hOk⟩ := succeeded_of_analyze h run hRun
    obtain ⟨tag, _, rfl⟩ := List.mem_map.mp hGlyph
    exact ⟨_, run_climbs hOk (Nat.zero_le _), peak_glyphEnvironment_le h⟩

theorem peak_eq_largest_of_analyze (h : font.analyze glyphs options = .ok a) :
    a.peak =
      largest ((font.plannedRuns options glyphs).flatMap fun run => Event.depths run.trace) := by
  have hPeak := (collects_of_analyze h).peak
  apply Nat.le_antisymm
  · rw [hPeak]
    intro run hRun
    obtain ⟨env, hClimbs, hEnv⟩ := exists_climbs_of_mem_plannedRuns h hRun
    exact Nat.le_trans hClimbs.covered (Nat.max_le.mpr ⟨hEnv, largest_depths_le_of_mem hRun⟩)
  · apply largest_le
    intro depth hDepth
    obtain ⟨run, hRun, hMem⟩ := List.mem_flatMap.mp hDepth
    obtain ⟨env, hClimbs, _⟩ := exists_climbs_of_mem_plannedRuns h hRun
    exact Nat.le_trans (le_largest hMem)
      (Nat.le_trans hClimbs.covers ((hPeak a.peak).mp (Nat.le_refl _) run hRun))

/-- The peak of a stack is the largest depth that its operations have left, and the peak of an
analysis is the largest depth after any statement that it has applied: in any of its programs, in
the functions they call and in the ELSE arms they take. -/
theorem peak_eq_largest_depth :
    (∀ operations : List StackOperation,
      (ValueStack.afterAll {} operations).depth ≤ (ValueStack.afterAll {} operations).peak ∧
      (ValueStack.afterAll {} operations).peak =
        largest (ValueStack.depthsAfter {} operations)) ∧
    ∀ (font : Font) (glyphs : Option (List String)) (options : RunOptions) (a : Analysis),
      font.analyze glyphs options = .ok a →
      (∀ step ∈ font.analysisSteps options glyphs, step.Succeeded options.axisCount) ∧
      a.peak =
        largest ((font.analysisSteps options glyphs).map fun step => step.after.stack.depth) := by
  constructor
  · intro operations
    have hEmpty : ValueStack.Sound {} := Nat.le_refl 0
    obtain ⟨hSound, hPeak⟩ := ValueStack.peak_afterAll hEmpty operations
    rw [Nat.zero_max] at hPeak
    exact ⟨hSound, hPeak⟩
  · intro font glyphs options a h
    constructor
    · rw [analysisSteps_of_analyze h]
      intro step hStep
      obtain ⟨run, hRun, hMem⟩ := List.mem_flatMap.mp hStep
      obtain ⟨env, hClimbs, _⟩ := exists_climbs_of_mem_plannedRuns h hRun
      exact hClimbs.succeeded step hMem
    · rw [peak_eq_largest_of_analyze h, analysisSteps_of_analyze h, List.map_flatMap]
      rfl

/-- The deepest stack is that of a function called from the ELSE arm of the glyph program. The
stack operations move a value through an unknown index and copy one from outside the stack. -/
theorem peak_eq_largest_depth_deeper_else :
    (ValueStack.afterAll {} [.pushWords [4, 10, 2], .push .unknown, .moveIndex, .push (.known 9),
      .copyIndex, .swap, .clear]).peak = 4 ∧
    largest (ValueStack.depthsAfter {} [.pushWords [4, 10, 2], .push .unknown, .moveIndex,
      .push (.known 9), .copyIndex, .swap, .clear]) = 4 ∧
    ∃ (font : Font) (a : Analysis), Font.load
        [("fpgm", "PUSHB[ ] 5 3 FDEF[ ] PUSHB[ ] 1 2 ADD[ ] POP[ ] ENDF[ ] " ++
            "FDEF[ ] PUSHB[ ] 1 2 3 4 5 CLEAR[ ] ENDF[ ]"),
          ("prep", "PUSHB[ ] 1 2 3 PUSHB[ ] 3 CALL[ ]"),
          ("A", "PUSHB[ ] 7 8 1 IF[ ] PUSHB[ ] 2 MINDEX[ ] ELSE[ ] PUSHB[ ] 5 CALL[ ] EIF[ ]")]
        [] = .ok font ∧
      font.analyze none { branchPolicy := .bothArms } = .ok a ∧ a.peak = 7 ∧
      largest ((font.analysisSteps { branchPolicy := .bothArms } none).map fun step =>
        step.after.stack.depth) = 7 := by
  have hEvaluated : ((Font.load
      [("fpgm", "PUSHB[ ] 5 3 FDEF[ ] PUSHB[ ] 1 2 ADD[ ] POP[ ] ENDF[ ] " ++
          "FDEF[ ] PUSHB[ ] 1 2 3 4 5 CLEAR[ ] ENDF[ ]"),
        ("prep", "PUSHB[ ] 1 2 3 PUSHB[ ] 3 CALL[ ]"),
        ("A", "PUSHB[ ] 7 8 1 IF[ ] PUSHB[ ] 2 MINDEX[ ] ELSE[ ] PUSHB[ ] 5 CALL[ ] EIF[ ]")]
      []).toOption.bind fun font =>
        (font.analyze none { branchPolicy := .bothArms }).toOption.map (·.peak)) = some 7 := by
    decide +kernel
  obtain ⟨font, hFont, hRest⟩ := Option.bind_eq_some_iff.mp hEvaluated
  obtain ⟨a, hAnalysis, hPeak⟩ := Option.map_eq_some_iff.mp hRest
  obtain ⟨hStacks, hAnalyses⟩ := peak_eq_largest_depth
  have hStack := (hStacks [.pushWords [4, 10, 2], .push .unknown, .moveIndex, .push (.known 9),
    .copyIndex, .swap, .clear]).2
  have hFour : (ValueStack.afterAll {} [.pushWords [4, 10, 2], .push .unknown, .moveIndex,
      .push (.known 9), .copyIndex, .swap, .clear]).peak = 4 := by
    decide
  have hOk := eq_ok_of_toOption hAnalysis
  have hLargest := (hAnalyses font none _ a hOk).2
  exact ⟨hFour, hStack.symm.trans hFour, font, a, eq_ok_of_toOption hFont, hOk, hPeak,
    hLargest.symm.trans hPeak⟩

end Font

end Hinting
