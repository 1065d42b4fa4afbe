import Hinting.Proofs.CountedCalls

/-!
# Taking the THEN arm beside taking both arms

An ELSE arm runs on a copy of the environment that is dropped, so it is seen in the
records of a run only: in the statements counted, in the calls and in the stack depth.
When a run that takes both arms succeeds, the run that takes the THEN arms does what
the first one does outside of ELSE arms. It succeeds too, ends in the same environment
and has recorded no more, and so has the analysis. Counters of 32 bits that the first run
has not made run over are no larger after the second.
-/

namespace Hinting

open Hinting.Action

/-- The options with another branch policy. -/
def RunOptions.taking (options : RunOptions) (policy : BranchPolicy) : RunOptions :=
  { options with branchPolicy := policy }

/-- One record holds no more than another one, traces apart. -/
structure Tally.Within (t u : Tally) : Prop where
  executed : t.executed ≤ u.executed
  called : ∀ label, t.called.contains label = true → u.called.contains label = true
  calls : ∀ weight, t.calls.total weight ≤ u.calls.total weight
  peak : t.peak ≤ u.peak

namespace Tally.Within

theorem refl (t : Tally) : t.Within t :=
  ⟨le_rfl, fun _ => id, fun _ => le_rfl, le_rfl⟩

theorem trans {t u v : Tally} (h : t.Within u) (h' : u.Within v) : t.Within v :=
  ⟨h.executed.trans h'.executed, fun label hLabel => h'.called label (h.called label hLabel),
    fun weight => (h.calls weight).trans (h'.calls weight), h.peak.trans h'.peak⟩

theorem dispatched {t u : Tally} (h : t.Within u) (step step' : Step) (stack : ValueStack) :
    ((t.addStep step).observe stack).Within ((u.addStep step').observe stack) := by
  refine ⟨Nat.succ_le_succ h.executed, h.called, h.calls, ?_⟩
  have hPeak := h.peak
  change max t.peak stack.peak ≤ max u.peak stack.peak
  omega

theorem self_dispatched (t : Tally) (step : Step) (stack : ValueStack) :
    t.Within ((t.addStep step).observe stack) :=
  ⟨Nat.le_succ _, fun _ => id, fun _ => le_rfl, Nat.le_max_left _ _⟩

theorem openCall {t u : Tally} (h : t.Within u) (label : Label) :
    (t.openCall label).Within (u.openCall label) := by
  refine ⟨h.executed, fun other hOther => ?_, fun weight => ?_, h.peak⟩
  · refine (SortedSet.contains_add _ label other).mpr ?_
    exact ((SortedSet.contains_add _ label other).mp hOther).imp_right (h.called other)
  · simp only [Tally.openCall, CallGraph.record, CallGraph.total_add]
    exact Nat.add_le_add_right (h.calls weight) _

theorem self_openCall (t : Tally) (label : Label) : t.Within (t.openCall label) := by
  refine ⟨le_rfl, fun other hOther => ?_, fun weight => ?_, le_rfl⟩
  · exact (SortedSet.contains_add _ label other).mpr (.inr hOther)
  · simp only [Tally.openCall, CallGraph.record, CallGraph.total_add]
    exact Nat.le_add_right _ _

theorem closeCall {t u : Tally} (h : t.Within u) (label : Label) (outer outer' : List Event) :
    (t.closeCall label outer).Within (u.closeCall label outer') :=
  ⟨h.executed, h.called, h.calls, h.peak⟩

end Tally.Within

/-- The records of a run only grow. -/
theorem runInvariant_within (options : RunOptions) (t : Tally) :
    RunInvariant options fun s => t.Within s.tally where
  dispatch a s state target reached hState hOk := by
    obtain ⟨_, env, _, rfl⟩ := RunAction.dispatch_eq_ok_iff.mp hOk
    exact hState.trans (.self_dispatched _ _ _)
  openCall _ label _ hState _ := hState.trans (.self_openCall _ label)
  closeCall _ label outer hState := ⟨hState.executed, hState.called, hState.calls, hState.peak⟩
  dropCopy _ _ _ hReached := hReached

/-- The same environment with records that hold no more. -/
structure RunState.Within (s t : RunState) : Prop where
  env : s.env = t.env
  tally : s.tally.Within t.tally

/-- Whenever `y` succeeds so does `x`, with the same result and with records that hold
no more. -/
abbrev Accompanies {α : Type} (x y : RunAction α) : Prop :=
  Matches (fun _ => False) RunState.Within Eq x y

namespace Accompanies

theorem dispatch (options : RunOptions) (policy policy' : BranchPolicy) (a : Activation)
    (s : Statement) :
    Accompanies (RunAction.dispatch (options.taking policy) a s)
      (RunAction.dispatch (options.taking policy') a s) := by
  intro state other hWithin target reached hOk
  obtain ⟨hBudget, env, hPerform, rfl⟩ := RunAction.dispatch_eq_ok_iff.mp hOk
  rw [← hWithin.env] at hPerform
  have hLess : state.tally.executed < (options.taking policy).maxStatements :=
    hWithin.tally.executed.trans_lt hBudget
  exact .inl ⟨target, _, RunAction.dispatch_eq_ok_iff.mpr ⟨hLess, env, hPerform, rfl⟩, rfl, rfl,
    hWithin.tally.dispatched _ _ _⟩

theorem visit (options : RunOptions) (policy policy' : BranchPolicy) (a : Activation)
    {call call' : (Fault → ExecutionError) → Label → RunAction Unit}
    (hCall : ∀ blame label, Accompanies (call blame label) (call' blame label)) (s : Statement) :
    Accompanies (RunAction.visit (options.taking policy) a call s)
      (RunAction.visit (options.taking policy') a call' s) := by
  refine (dispatch options policy policy' a s).bind fun target target' hTarget => ?_
  subst hTarget
  cases target with
  | none => exact Matches.pure rfl
  | some label => exact hCall _ label

/-- An action on a copy of the environment only adds to the records. -/
theorem onCopy_bind {x y action : RunAction Unit} (h : Accompanies x y)
    (hGrows : ∀ t : Tally, Preserves (fun s => t.Within s.tally) action) :
    Accompanies x (RunAction.onCopy action >>= fun _ => y) := by
  intro s t hWithin b t' hOk
  obtain ⟨_, between, hCopy, hRest⟩ := bind_eq_ok hOk
  obtain ⟨last, hLast, rfl⟩ := RunAction.onCopy_eq_ok hCopy
  have hBetween : s.Within { last with env := t.env } :=
    ⟨hWithin.env, hGrows s.tally t () last hWithin.tally hLast⟩
  exact h s _ hBetween b t' hRest

theorem block {visit visit' : Statement → RunAction Unit}
    (hVisit : ∀ s, Accompanies (visit s) (visit' s))
    (hGrows : ∀ (t : Tally) s, Preserves (fun u => t.Within u.tally) (visit' s))
    (options : RunOptions) (b : Block) :
    Accompanies (b.run .thenArm visit) (b.run .bothArms visit') := by
  induction b with
  | nil => exact Matches.pure rfl
  | step s rest ih => exact (hVisit s).bind fun _ _ _ => ih
  | cond s thenArm eif rest ihThen ihRest =>
    exact (hVisit s).bind fun _ _ _ =>
      ihThen.bind fun _ _ _ => (hVisit eif).bind fun _ _ _ => ihRest
  | condElse s thenArm mid elseArm eif rest ihThen ihElse ihRest =>
    have hTail : Accompanies
        (do
          thenArm.run .thenArm visit
          visit eif
          rest.run .thenArm visit)
        (do
          thenArm.run .bothArms visit'
          visit' eif
          rest.run .bothArms visit') :=
      ihThen.bind fun _ _ _ => (hVisit eif).bind fun _ _ _ => ihRest
    have hElse (t : Tally) : Preserves (fun u => t.Within u.tally) (do
        visit' mid
        elseArm.run .bothArms visit') :=
      (hGrows t mid).bind fun _ =>
        (runInvariant_within options t).block .bothArms (hGrows t) elseArm
    exact (hVisit s).bind fun _ _ _ => hTail.onCopy_bind hElse

theorem entering {x y : RunAction Unit} (h : Accompanies x y) (label : Label) :
    Accompanies (RunAction.entering label x) (RunAction.entering label y) := by
  intro s t hWithin _ t' hOk
  obtain ⟨last, hLast, rfl⟩ := RunAction.entering_eq_ok hOk
  have hOpen : RunState.Within { s with tally := s.tally.openCall label }
      { t with tally := t.tally.openCall label } :=
    ⟨hWithin.env, hWithin.tally.openCall label⟩
  rcases h _ _ hOpen () last hLast with ⟨_, s', hx, _, hEnd⟩ | ⟨_, _, _, hFalse⟩
  · refine .inl ⟨(), { s' with tally := s'.tally.closeCall label s.tally.trace },
      by rw [RunAction.entering, hx], rfl, hEnd.env, ?_⟩
    exact hEnd.tally.closeCall label _ _
  · exact hFalse.elim

theorem call (options : RunOptions) (program : String) (room : Nat) (chain : List Label)
    (blame : Fault → ExecutionError) (label : Label) :
    Accompanies (RunAction.call (options.taking .thenArm) program room chain blame label)
      (RunAction.call (options.taking .bothArms) program room chain blame label) := by
  -- the room falls with every call entered; both runs look up the same function
  induction room generalizing chain blame label with
  | zero =>
    intro s t _ _ t' hOk
    obtain ⟨d, inner, _, _, hRoom, _⟩ := RunAction.call_eq_ok hOk
    cases hRoom
  | succ room ih =>
    intro s t hWithin _ t' hOk
    obtain ⟨d, inner, hLookup, hCycle, hRoom, hEnter⟩ := RunAction.call_eq_ok hOk
    cases hRoom
    rw [← hWithin.env] at hLookup
    have hGrows (tally : Tally) := (runInvariant_within (options.taking .bothArms) tally).visit
      ⟨program, chain ++ [label], d.body.tag⟩
      ((runInvariant_within (options.taking .bothArms) tally).call program room (chain ++ [label]))
    have hBody := (block (visit options .thenArm .bothArms ⟨program, chain ++ [label], d.body.tag⟩
      (ih (chain ++ [label]))) hGrows (options.taking .bothArms) d.body.block).entering label
    rw [RunAction.call_eq_enter hLookup hCycle]
    exact hBody s t hWithin () t' hEnter

theorem body (options : RunOptions) (program : String) (b : Body) :
    Accompanies (RunAction.body (options.taking .thenArm) program b)
      (RunAction.body (options.taking .bothArms) program b) :=
  block (visit options .thenArm .bothArms _ (call options program _ _))
    (fun t => (runInvariant_within (options.taking .bothArms) t).visit _
      ((runInvariant_within (options.taking .bothArms) t).call program _ _))
    (options.taking .bothArms) b.block

end Accompanies

/-- Two runs that came to their ends in the same environment, the first with records
that hold no more. -/
structure Run.Within (r q : Run) : Prop where
  program : r.program = q.program
  env : r.env = q.env
  executed : r.executed ≤ q.executed
  called : ∃ called called', r.result = .ok called ∧ q.result = .ok called' ∧
    ∀ label, called.contains label = true → called'.contains label = true
  calls : ∀ weight, r.calls.total weight ≤ q.calls.total weight
  peak : r.peak ≤ q.peak

theorem Font.run_within {font : Font} {options : RunOptions} {tag : String} {env : Environment}
    {called : LabelSet} (h : (font.run (options.taking .bothArms) tag env).result = .ok called) :
    (font.run (options.taking .thenArm) tag env).Within
      (font.run (options.taking .bothArms) tag env) := by
  obtain ⟨program, state, hProgram, hBody, hRun⟩ := run_eq_finished h
  have hStart : RunState.Within { env := env } { env := env } := ⟨rfl, .refl _⟩
  rcases Accompanies.body options tag program.body _ _ hStart () state hBody with
    ⟨_, last, hLast, _, hWithin⟩ | ⟨_, _, _, hFalse⟩
  · have hThen : font.run (options.taking .thenArm) tag env = last.finished tag := by
      simp only [Font.run, hProgram, hLast]
      rfl
    rw [hThen, hRun]
    exact ⟨rfl, hWithin.env, hWithin.tally.executed, ⟨_, _, rfl, rfl, hWithin.tally.called⟩,
      hWithin.tally.calls, hWithin.tally.peak⟩
  · exact hFalse.elim

/-- One analysis has found the same state as another one, and no more calls. -/
structure Analysis.Within (a b : Analysis) : Prop where
  graphics : a.graphics = b.graphics
  cvt : a.cvt = b.cvt
  programCalls : ∀ tag, Option.Rel
    (fun called called' : LabelSet => ∀ label, called.contains label = true →
      called'.contains label = true)
    (a.programCalls.get? tag) (b.programCalls.get? tag)
  calls : ∀ weight, a.calls.total weight ≤ b.calls.total weight
  peak : a.peak ≤ b.peak

namespace Analysis.Within

theorem add {a b b' : Analysis} (h : a.Within b) {r q : Run} (hRun : r.Within q)
    (hOk : b.add q = .ok b') : ∃ a', a.add r = .ok a' ∧ a'.Within b' := by
  obtain ⟨called', hResult', rfl⟩ := add_eq_ok hOk
  obtain ⟨called, other, hResult, hOther, hCalled⟩ := hRun.called
  rw [hResult'] at hOther
  cases hOther
  refine ⟨_, a.add_of_ok hResult, h.graphics, h.cvt, fun tag => ?_, fun weight => ?_, ?_⟩
  · rw [hRun.program]
    by_cases hTag : tag = q.program
    · subst hTag
      simpa only [SortedMap.get?_insert_self] using Option.Rel.some hCalled
    · simpa only [SortedMap.get?_insert_of_ne _ hTag] using h.programCalls tag
  · simp only [CallGraph.total_merge]
    exact Nat.add_le_add (h.calls weight) (hRun.calls weight)
  · have hPeak := h.peak
    have hRunPeak := hRun.peak
    change max a.peak r.peak ≤ max b.peak q.peak
    omega

theorem foldlM {runs others : List Run} (h : List.Forall₂ Run.Within runs others)
    {a b b' : Analysis} (hWithin : a.Within b) (hOk : others.foldlM Analysis.add b = .ok b') :
    ∃ a', runs.foldlM Analysis.add a = .ok a' ∧ a'.Within b' := by
  induction h generalizing a b with
  | nil =>
    cases hOk
    exact ⟨a, rfl, hWithin⟩
  | cons hFirst _ ih =>
    obtain ⟨next, hAdd, hRest⟩ := foldlM_cons_eq_ok_iff.mp hOk
    obtain ⟨next', hAdd', hNext⟩ := hWithin.add hFirst hAdd
    obtain ⟨a', hRest', hEnd⟩ := ih hNext hRest
    exact ⟨a', foldlM_cons_eq_ok_iff.mpr ⟨next', hAdd', hRest'⟩, hEnd⟩

end Analysis.Within

namespace Font

variable {font : Font} {options : RunOptions} {glyphs : Option (List String)}

/-- The control value program leaves the glyph programs the same environment. -/
theorem controlValueRun?_within
    (h : ∀ run, font.controlValueRun? (options.taking .bothArms) = some run →
      ∃ called, run.result = .ok called) :
    font.glyphEnvironment (font.controlValueRun? (options.taking .thenArm)) =
        font.glyphEnvironment (font.controlValueRun? (options.taking .bothArms)) ∧
      List.Forall₂ Run.Within (font.controlValueRun? (options.taking .thenArm)).toList
        (font.controlValueRun? (options.taking .bothArms)).toList := by
  unfold controlValueRun? at h ⊢
  by_cases hProgram : font.programs.contains controlValueProgramTag = true
  · simp only [if_pos hProgram] at h ⊢
    obtain ⟨called, hOk⟩ := h _ rfl
    have hWithin := run_within hOk
    refine ⟨?_, .cons hWithin .nil⟩
    simp only [glyphEnvironment, hWithin.env]
  · simp only [if_neg hProgram, true_and]
    exact .nil

theorem plannedRuns_within
    (h : ∀ run ∈ font.plannedRuns (options.taking .bothArms) glyphs,
      ∃ called, run.result = .ok called) :
    font.glyphEnvironment (font.controlValueRun? (options.taking .thenArm)) =
        font.glyphEnvironment (font.controlValueRun? (options.taking .bothArms)) ∧
      List.Forall₂ Run.Within (font.plannedRuns (options.taking .thenArm) glyphs)
        (font.plannedRuns (options.taking .bothArms) glyphs) := by
  obtain ⟨hEnv, hFirst⟩ := controlValueRun?_within fun run hRun =>
    h run (List.mem_append_left _ (Option.mem_toList.mpr hRun))
  refine ⟨hEnv, List.rel_append hFirst ?_⟩
  rw [hEnv, List.forall₂_map_left_iff, List.forall₂_map_right_iff, List.forall₂_same]
  intro tag hTag
  obtain ⟨called, hOk⟩ := h _ (List.mem_append_right _ (List.mem_map_of_mem hTag))
  exact run_within hOk

/-- Taking both arms only adds observations: the analysis that takes the THEN arms finds
the same state and no call or stack depth beyond those found with both arms. -/
theorem analyze_thenArm_within (font : Font) (options : RunOptions) :
    (∀ glyphs b, font.analyze glyphs (options.taking .bothArms) = .ok b →
      ∃ t, font.analyze glyphs (options.taking .thenArm) = .ok t ∧
        t.graphics = b.graphics ∧ t.cvt = b.cvt ∧ t.programCalls.keys = b.programCalls.keys ∧
        (∀ tag called, t.programCalls.get? tag = some called →
          ∃ called', b.programCalls.get? tag = some called' ∧
            ∀ label, called.contains label = true → called'.contains label = true) ∧
        (∀ w, font.counters glyphs (options.taking .bothArms) = some w → w.Represents b.calls ∧
          ∃ v, font.counters glyphs (options.taking .thenArm) = some v ∧ v.Represents t.calls ∧
            ∀ label, v.count label ≤ w.count label) ∧
        t.peak ≤ b.peak) ∧
    ∀ (s s' : Session) tag env called, s.options = options.taking .thenArm →
      s'.options = options.taking .bothArms → (s'.execute font tag env).1.result = .ok called →
      (∃ called', (s.execute font tag env).1.result = .ok called') ∧
        (s.execute font tag env).1.env = (s'.execute font tag env).1.env ∧
        ∀ before w : WordGraph, before.counts.Ascending →
          (s'.execute font tag env).1.countInto (some before) = some w →
          ∃ v, (s.execute font tag env).1.countInto (some before) = some v ∧
            ∀ label, v.count label ≤ w.count label := by
  refine ⟨fun glyphs b hOk => ?_, fun s s' tag env called hThen hBoth hOk => ?_⟩
  · obtain ⟨hEnv, hRuns⟩ := plannedRuns_within (succeeded_of_analyze hOk)
    have hFold := hOk
    rw [analyze_eq_foldlM, ← hEnv] at hFold
    obtain ⟨t, hThen, hWithin⟩ := Analysis.Within.foldlM hRuns
      ⟨rfl, rfl, fun _ => .none, fun _ => le_rfl, le_rfl⟩ hFold
    rw [← analyze_eq_foldlM] at hThen
    refine ⟨t, hThen, hWithin.graphics, hWithin.cvt, ?_, fun tag called hCalled => ?_,
      fun w hCounters => ?_, hWithin.peak⟩
    · refine (summarizes_of_analyze hThen).ascending.keys_eq (summarizes_of_analyze hOk).ascending
        fun tag => ?_
      have hRel := hWithin.programCalls tag
      generalize t.programCalls.get? tag = found, b.programCalls.get? tag = found' at hRel ⊢
      cases hRel with
      | none => rfl
      | some _ => rfl
    · have hRel := hWithin.programCalls tag
      rw [hCalled] at hRel
      generalize b.programCalls.get? tag = found' at hRel ⊢
      cases hRel with
      | some hSubset => exact ⟨_, rfl, hSubset⟩
    · have hAscending := ascending_calls_of_analyze hThen
      obtain ⟨v, hv, hLe⟩ := (hold_counters hThen).exists_le hAscending (hold_counters hOk)
        (CallGraph.count_le_of_total hAscending (ascending_calls_of_analyze hOk) hWithin.calls)
        hCounters
      exact ⟨(hold_counters hOk w).mp hCounters, v, hv, (hold_counters hThen v).mp hv, hLe⟩
  · simp only [Session.execute, hThen, hBoth] at hOk ⊢
    have hWithin := run_within hOk
    obtain ⟨called', _, hResult, _⟩ := hWithin.called
    refine ⟨⟨called', hResult⟩, hWithin.env, fun before w hBefore hCounted => ?_⟩
    have hHold := WordGraph.hold_graph hBefore
    have hGraph := WordGraph.ascending_graph hBefore
    refine (hold_countInto hHold hGraph _ _ _ _).exists_le (CallGraph.ascending_merge hGraph _)
      (hold_countInto hHold hGraph _ _ _ _) ?_ hCounted
    refine CallGraph.count_le_of_total (CallGraph.ascending_merge hGraph _)
      (CallGraph.ascending_merge hGraph _) fun weight => ?_
    simpa using hWithin.calls weight

/-- The ELSE arm of the glyph program calls a function that goes deeper than the THEN arm,
and the control value program writes another control value in its ELSE arm. -/
theorem analyze_thenArm_within_deeper_else :
    ∃ (font : Font) (s s' : Session) (b : Analysis) (called : LabelSet) (w after : WordGraph),
      Font.load
        [("fpgm", "PUSHB[ ] 5 3 FDEF[ ] PUSHB[ ] 96 SMD[ ] ENDF[ ] " ++
            "FDEF[ ] PUSHB[ ] 3 PUSHB[ ] 1 2 3 CALL[ ] CLEAR[ ] ENDF[ ]"),
          ("prep", "MPPEM[ ] IF[ ] PUSHB[ ] 0 7 WCVTP[ ] ELSE[ ] PUSHB[ ] 0 9 WCVTP[ ] EIF[ ]"),
          ("A", "PUSHB[ ] 1 IF[ ] PUSHB[ ] 3 CALL[ ] ELSE[ ] PUSHB[ ] 5 CALL[ ] EIF[ ]")]
        [1] = .ok font ∧
      s.options = RunOptions.taking {} .thenArm ∧ s'.options = RunOptions.taking {} .bothArms ∧
      font.analyze none (RunOptions.taking {} .bothArms) = .ok b ∧
      b.calls.toList = [(3, 2), (5, 1)] ∧ b.peak = 4 ∧ b.cvt = [.known 7] ∧
      font.counters none (RunOptions.taking {} .bothArms) = some w ∧ w.Represents b.calls ∧
      (∃ t v, font.analyze none (RunOptions.taking {} .thenArm) = .ok t ∧
        t.graphics = b.graphics ∧ t.cvt = b.cvt ∧ t.programCalls.keys = b.programCalls.keys ∧
        (∀ tag called, t.programCalls.get? tag = some called →
          ∃ called', b.programCalls.get? tag = some called' ∧
            ∀ label, called.contains label = true → called'.contains label = true) ∧
        font.counters none (RunOptions.taking {} .thenArm) = some v ∧ v.Represents t.calls ∧
        (∀ label, v.count label ≤ w.count label) ∧ t.peak ≤ b.peak) ∧
      (s'.execute font "A" font.initialEnvironment).1.result = .ok called ∧
      (∃ called', (s.execute font "A" font.initialEnvironment).1.result = .ok called') ∧
      (s.execute font "A" font.initialEnvironment).1.env =
        (s'.execute font "A" font.initialEnvironment).1.env ∧
      (s'.execute font "A" font.initialEnvironment).1.countInto (some {}) = some after ∧
      ∃ v, (s.execute font "A" font.initialEnvironment).1.countInto (some {}) = some v ∧
        ∀ label, v.count label ≤ after.count label := by
  let s : Session := { options := RunOptions.taking {} .thenArm }
  let s' : Session := { options := RunOptions.taking {} .bothArms }
  have hEvaluated : ((Font.load
      [("fpgm", "PUSHB[ ] 5 3 FDEF[ ] PUSHB[ ] 96 SMD[ ] ENDF[ ] " ++
          "FDEF[ ] PUSHB[ ] 3 PUSHB[ ] 1 2 3 CALL[ ] CLEAR[ ] ENDF[ ]"),
        ("prep", "MPPEM[ ] IF[ ] PUSHB[ ] 0 7 WCVTP[ ] ELSE[ ] PUSHB[ ] 0 9 WCVTP[ ] EIF[ ]"),
        ("A", "PUSHB[ ] 1 IF[ ] PUSHB[ ] 3 CALL[ ] ELSE[ ] PUSHB[ ] 5 CALL[ ] EIF[ ]")]
      [1]).toOption.bind fun font =>
        (font.analyze none (RunOptions.taking {} .bothArms)).toOption.bind fun b =>
          (s'.execute font "A" font.initialEnvironment).1.result.toOption.bind fun _ =>
            (font.counters none (RunOptions.taking {} .bothArms)).bind fun _ =>
              ((s'.execute font "A" font.initialEnvironment).1.countInto (some {})).map fun _ =>
                (b.calls.toList, b.peak, b.cvt)) = some ([(3, 2), (5, 1)], 4, [.known 7]) := by
    decide +kernel
  obtain ⟨font, hFont, hRest⟩ := Option.bind_eq_some_iff.mp hEvaluated
  obtain ⟨b, hAnalysis, hRest⟩ := Option.bind_eq_some_iff.mp hRest
  obtain ⟨called, hResult, hRest⟩ := Option.bind_eq_some_iff.mp hRest
  obtain ⟨w, hCounters, hRest⟩ := Option.bind_eq_some_iff.mp hRest
  obtain ⟨after, hAfter, hFound⟩ := Option.map_eq_some_iff.mp hRest
  obtain ⟨hCalls, hRest⟩ := Prod.mk.inj hFound
  obtain ⟨hPeak, hCvt⟩ := Prod.mk.inj hRest
  have hOk := eq_ok_of_toOption hAnalysis
  have hRun := eq_ok_of_toOption hResult
  obtain ⟨hAnalyses, hExecutions⟩ := analyze_thenArm_within font {}
  obtain ⟨t, ht, hGraphics, hValues, hKeys, hSubset, hCounts, hLess⟩ := hAnalyses none b hOk
  obtain ⟨hw, v, hv, hThen, hLe⟩ := hCounts w hCounters
  obtain ⟨hSucceeds, hEnv, hBelow⟩ := hExecutions s s' "A" _ called rfl rfl hRun
  exact ⟨font, s, s', b, called, w, after, eq_ok_of_toOption hFont, rfl, rfl, hOk, hCalls, hPeak,
    hCvt, hCounters, hw, ⟨t, v, ht, hGraphics, hValues, hKeys, hSubset, hv, hThen, hLe, hLess⟩,
    hRun, hSucceeds, hEnv, hAfter, hBelow {} after .empty hAfter⟩

end Font

end Hinting
