import Hinting.Proofs.AnalysisRuns

/-!
# Which functions an analysis finds called

A run records each call twice, in a set of labels and in a call graph, and the two
agree. An analysis adds up the graphs but keeps only one set for each program, the one
of its last run. So nothing is lost as long as the control value program is not also
selected as a glyph program; if it is, its second run has to call all that the first
one called.
-/

namespace Hinting

open Hinting.Action

/-- The set and the graph of the functions called agree, and all are defined. -/
structure RunState.Recorded (table : FunctionTable) (s : RunState) : Prop where
  functions : s.env.functions = table
  labels : ∀ label, s.tally.called.contains label = true ↔ label ∈ s.tally.calls.labels
  defined : ∀ label, s.tally.called.contains label = true → ∃ d, table.get? label = some d

theorem runInvariant_recorded (options : RunOptions) (functions : FunctionTable) :
    RunInvariant options (RunState.Recorded functions) where
  dispatch a s state target reached hState hOk := by
    obtain ⟨_, env, hPerform, rfl⟩ := RunAction.dispatch_eq_ok_iff.mp hOk
    exact ⟨(Statement.perform_functions hPerform).trans hState.functions, hState.labels,
      hState.defined⟩
  openCall state label d hState hLookup := by
    refine ⟨hState.functions, fun other => ?_, fun other hOther => ?_⟩
    · have hLabels := hState.labels other
      rw [Tally.openCall, SortedSet.contains_add, hLabels]
      exact (CallGraph.mem_labels_add _ label other 1).symm
    · rcases (SortedSet.contains_add _ label other).mp hOther with rfl | hOther
      · exact ⟨d, hState.functions ▸ hLookup⟩
      · exact hState.defined other hOther
  closeCall _ _ _ hState := ⟨hState.functions, hState.labels, hState.defined⟩
  dropCopy _ _ hState hReached := ⟨hState.functions, hReached.labels, hReached.defined⟩

namespace Font

theorem recorded_of_run {font : Font} {options : RunOptions} {tag : String} {env : Environment}
    {called : LabelSet} (h : (font.run options tag env).result = .ok called) :
    (∀ label, called.contains label = true ↔
        label ∈ (font.run options tag env).calls.labels) ∧
      (∀ label, called.contains label = true → ∃ d, env.functions.get? label = some d) ∧
      (font.run options tag env).env.functions = env.functions := by
  obtain ⟨program, state, _, hBody, hRun⟩ := run_eq_finished h
  have hStart : RunState.Recorded env.functions { env } :=
    ⟨rfl, fun label => by simp [SortedMap.contains_iff_mem_keys, CallGraph.labels, SortedMap.keys],
      fun label hLabel => nomatch hLabel⟩
  have hEnd := (runInvariant_recorded options env.functions).body tag program.body _ () state
    hStart hBody
  rw [hRun] at h ⊢
  cases h
  exact ⟨hEnd.labels, hEnd.defined, hEnd.functions⟩

theorem glyphEnvironment_functions {font : Font} {options : RunOptions}
    (h : ∀ run, font.controlValueRun? options = some run → ∃ called, run.result = .ok called) :
    (font.glyphEnvironment (font.controlValueRun? options)).functions = font.functions := by
  unfold controlValueRun? at h ⊢
  split
  · rename_i hProgram
    rw [if_pos hProgram] at h
    obtain ⟨called, hOk⟩ := h _ rfl
    exact (recorded_of_run hOk).2.2
  · rfl

/-- An analysis misses no function: those it finds called are those of the call graph,
all are defined, and what is kept of a program covers each of its runs. -/
structure MissesNoCall (font : Font) (runs : List Run) (a : Analysis) : Prop where
  labels : ∀ label, a.calledFunctions.contains label = true ↔ label ∈ a.calls.labels
  defined : ∀ label, a.calledFunctions.contains label = true →
    ∃ d, font.functions.get? label = some d
  stored : ∀ run ∈ runs, ∃ program, (font.withCalls a).programs.get? run.program = some program ∧
    ∀ label ∈ run.calls.labels, program.called.contains label = true

/-- The control value program, when it is run again as a glyph program, calls all that
it called before. -/
def RerunCallsAll (font : Font) (glyphs : Option (List String)) (options : RunOptions) : Prop :=
  controlValueProgramTag ∈ font.selectedTags glyphs →
    ∀ run, font.controlValueRun? options = some run → ∀ label ∈ run.calls.labels,
      label ∈ (font.run options controlValueProgramTag
        (font.glyphEnvironment (font.controlValueRun? options))).calls.labels

section Analyzed

variable {font : Font} {glyphs : Option (List String)} {options : RunOptions} {a : Analysis}

theorem exists_of_controlValueRun? {run : Run} (h : font.controlValueRun? options = some run) :
    run = font.run options controlValueProgramTag font.initialEnvironment := by
  unfold controlValueRun? at h
  split at h
  · exact (Option.some.inj h).symm
  · cases h

theorem mem_analysisRuns_iff (h : font.analyze glyphs options = .ok a) (run : Run) :
    run ∈ font.analysisRuns options (font.controlValueRun? options) glyphs ↔
      font.controlValueRun? options = some run ∨ ∃ tag ∈ font.selectedTags glyphs,
        run = font.run options tag (font.glyphEnvironment (font.controlValueRun? options)) := by
  rw [analysisRuns_of_analyze h, List.mem_append, Option.mem_toList, List.mem_map]
  simp only [eq_comm]

theorem recorded_of_mem_analysisRuns (h : font.analyze glyphs options = .ok a) {run : Run}
    (hRun : run ∈ font.analysisRuns options (font.controlValueRun? options) glyphs) :
    ∃ called program, run.result = .ok called ∧ font.programs.get? run.program = some program ∧
      (∀ label, called.contains label = true ↔ label ∈ run.calls.labels) ∧
      ∀ label, called.contains label = true → ∃ d, font.functions.get? label = some d := by
  have hSucceeded := (summarizes_of_analyze h).succeeded
  obtain ⟨called, hOk⟩ := hSucceeded run hRun
  have hFunctions : (font.glyphEnvironment (font.controlValueRun? options)).functions =
      font.functions :=
    glyphEnvironment_functions fun first hFirst =>
      hSucceeded first ((mem_analysisRuns_iff h first).mpr (.inl hFirst))
  obtain ⟨tag, env, rfl, hEnv⟩ : ∃ tag env, run = font.run options tag env ∧
      env.functions = font.functions := by
    rcases (mem_analysisRuns_iff h run).mp hRun with hFirst | ⟨tag, _, rfl⟩
    · exact ⟨_, _, exists_of_controlValueRun? hFirst, rfl⟩
    · exact ⟨tag, _, rfl, hFunctions⟩
  obtain ⟨program, _, hProgram, _⟩ := run_eq_finished hOk
  obtain ⟨hLabels, hDefined, _⟩ := recorded_of_run hOk
  exact ⟨called, program, hOk, by rw [run_program]; exact hProgram, hLabels, hEnv ▸ hDefined⟩

theorem mem_labels_lastRun (h : font.analyze glyphs options = .ok a)
    (hRerun : font.RerunCallsAll glyphs options) {run : Run}
    (hRun : run ∈ font.analysisRuns options (font.controlValueRun? options) glyphs) {label : Label}
    (hLabel : label ∈ run.calls.labels) :
    ∃ last, lastRun? (font.analysisRuns options (font.controlValueRun? options) glyphs)
      run.program = some last ∧ label ∈ last.calls.labels := by
  rcases (mem_analysisRuns_iff h run).mp hRun with hFirst | ⟨tag, hTag, rfl⟩
  · have hProgram : run.program = controlValueProgramTag := by
      rw [exists_of_controlValueRun? hFirst, run_program]
    rw [hProgram]
    by_cases hTag : controlValueProgramTag ∈ font.selectedTags glyphs
    · exact ⟨_, lastRun?_of_mem_selectedTags h hTag, hRerun hTag run hFirst label hLabel⟩
    · exact ⟨run, lastRun?_controlValueRun h hTag hFirst, hLabel⟩
  · rw [run_program]
    exact ⟨_, lastRun?_of_mem_selectedTags h hTag, hLabel⟩

theorem get?_programCalls_of_lastRun? (h : font.analyze glyphs options = .ok a) {tag : String}
    {last : Run} {called : LabelSet}
    (hLast : lastRun? (font.analysisRuns options (font.controlValueRun? options) glyphs) tag =
      some last) (hOk : last.result = .ok called) : a.programCalls.get? tag = some called := by
  rw [(summarizes_of_analyze h).programCalls, hLast, Option.bind_some, hOk]
  rfl

/-- Every function called is found, when the control value program is not run again or
repeats its calls. -/
theorem contains_calledFunctions_of_mem (h : font.analyze glyphs options = .ok a)
    (hRerun : font.RerunCallsAll glyphs options) {run : Run}
    (hRun : run ∈ font.analysisRuns options (font.controlValueRun? options) glyphs) {label : Label}
    (hLabel : label ∈ run.calls.labels) :
    ∃ called, a.programCalls.get? run.program = some called ∧ called.contains label = true := by
  obtain ⟨last, hLast, hLabel⟩ := mem_labels_lastRun h hRerun hRun hLabel
  obtain ⟨called, _, hOk, _, hLabels, _⟩ :=
    recorded_of_mem_analysisRuns h (mem_of_lastRun? hLast).1
  exact ⟨called, get?_programCalls_of_lastRun? h hLast hOk, (hLabels label).mpr hLabel⟩

theorem exists_run_of_contains_calledFunctions (h : font.analyze glyphs options = .ok a)
    {label : Label} (hLabel : a.calledFunctions.contains label = true) :
    (∃ d, font.functions.get? label = some d) ∧
      ∃ run ∈ font.analysisRuns options (font.controlValueRun? options) glyphs,
        label ∈ run.calls.labels := by
  have hSummary := summarizes_of_analyze h
  obtain ⟨tag, called, hCalled, hLabel⟩ :=
    (Analysis.contains_calledFunctions_iff hSummary.ascending label).mp hLabel
  rw [hSummary.programCalls] at hCalled
  obtain ⟨run, hLast, hOption⟩ := Option.bind_eq_some_iff.mp hCalled
  have hRun := (mem_of_lastRun? hLast).1
  obtain ⟨called', _, hOk, _, hLabels, hDefined⟩ := recorded_of_mem_analysisRuns h hRun
  rw [eq_ok_of_toOption hOption] at hOk
  cases hOk
  exact ⟨hDefined label hLabel, run, hRun, (hLabels label).mp hLabel⟩

theorem missesNoCall_iff (h : font.analyze glyphs options = .ok a) :
    font.MissesNoCall (font.analysisRuns options (font.controlValueRun? options) glyphs) a ↔
      font.RerunCallsAll glyphs options := by
  have hSummary := summarizes_of_analyze h
  constructor
  · intro hComplete hTag run hFirst label hLabel
    have hRun := (mem_analysisRuns_iff h run).mpr (.inl hFirst)
    obtain ⟨program, hProgram, hStored⟩ := hComplete.stored run hRun
    have hLast := lastRun?_of_mem_selectedTags h hTag
    obtain ⟨called, _, hOk, _, hLabels, _⟩ :=
      recorded_of_mem_analysisRuns h (mem_of_lastRun? hLast).1
    rw [get?_withCalls font hSummary.ascending, exists_of_controlValueRun? hFirst, run_program,
      get?_programCalls_of_lastRun? h hLast hOk, Option.map_eq_some_iff] at hProgram
    obtain ⟨_, _, rfl⟩ := hProgram
    exact (hLabels label).mp (hStored label hLabel)
  · intro hRerun
    refine ⟨fun label => ⟨fun hLabel => ?_, fun hLabel => ?_⟩, fun label hLabel => ?_,
      fun run hRun => ?_⟩
    · exact (hSummary.calls label).mpr (exists_run_of_contains_calledFunctions h hLabel).2
    · obtain ⟨run, hRun, hLabel⟩ := (hSummary.calls label).mp hLabel
      exact (Analysis.contains_calledFunctions_iff hSummary.ascending label).mpr
        ⟨run.program, contains_calledFunctions_of_mem h hRerun hRun hLabel⟩
    · exact (exists_run_of_contains_calledFunctions h hLabel).1
    · obtain ⟨_, program, _, hProgram, _⟩ := recorded_of_mem_analysisRuns h hRun
      refine ⟨_, by rw [get?_withCalls font hSummary.ascending, hProgram]; rfl, ?_⟩
      intro label hLabel
      obtain ⟨called, hCalled, hContains⟩ := contains_calledFunctions_of_mem h hRerun hRun hLabel
      simpa [hCalled] using hContains

/-- The control value program repeats its call as the second of three glyph programs. -/
theorem missesNoCall_iff_repeated_call :
    ∃ font a, Font.load
        [("fpgm", "PUSHB[ ] 1 0 FDEF[ ] PUSHB[ ] 1 CALL[ ] ENDF[ ] FDEF[ ] ENDF[ ]"),
          ("prep", "PUSHB[ ] 0 CALL[ ]"), ("A", "PUSHB[ ] 1 CALL[ ]")] [] = .ok font ∧
      font.analyze (some ["A", "prep", "A"]) {} = .ok a ∧
      controlValueProgramTag ∈ font.selectedTags (some ["A", "prep", "A"]) ∧
      a.calls.toList = [(0, 2), (1, 4)] ∧
      (font.MissesNoCall (font.analysisRuns {} (font.controlValueRun? {})
          (some ["A", "prep", "A"])) a ↔
        font.RerunCallsAll (some ["A", "prep", "A"]) {}) := by
  have hEvaluated : ((Font.load
      [("fpgm", "PUSHB[ ] 1 0 FDEF[ ] PUSHB[ ] 1 CALL[ ] ENDF[ ] FDEF[ ] ENDF[ ]"),
        ("prep", "PUSHB[ ] 0 CALL[ ]"), ("A", "PUSHB[ ] 1 CALL[ ]")] []).toOption.bind fun font =>
      (font.analyze (some ["A", "prep", "A"]) {}).toOption.map (·.calls.toList)) =
        some [(0, 2), (1, 4)] := by
    decide +kernel
  obtain ⟨font, hFont, hRest⟩ := Option.bind_eq_some_iff.mp hEvaluated
  obtain ⟨a, hAnalysis, hCalls⟩ := Option.map_eq_some_iff.mp hRest
  have hOk := eq_ok_of_toOption hAnalysis
  exact ⟨font, a, eq_ok_of_toOption hFont, hOk, by simp [selectedTags, controlValueProgramTag],
    hCalls, missesNoCall_iff hOk⟩

/-- The second run of the control value program reads what the first one stored and
calls another function, so the first call is not found. -/
theorem not_missesNoCall_of_changed_call :
    ∃ font a, Font.load
        [("fpgm", "PUSHB[ ] 1 0 FDEF[ ] ENDF[ ] FDEF[ ] ENDF[ ]"),
          ("prep", "PUSHB[ ] 0 RS[ ] CALL[ ] PUSHB[ ] 0 1 WS[ ]")] [] = .ok font ∧
      font.analyze (some ["prep"]) {} = .ok a ∧
      a.calls.labels = [0, 1] ∧ a.calledFunctions.keys = [1] ∧
      ¬font.MissesNoCall (font.analysisRuns {} (font.controlValueRun? {}) (some ["prep"])) a := by
  have hEvaluated : ((Font.load
      [("fpgm", "PUSHB[ ] 1 0 FDEF[ ] ENDF[ ] FDEF[ ] ENDF[ ]"),
        ("prep", "PUSHB[ ] 0 RS[ ] CALL[ ] PUSHB[ ] 0 1 WS[ ]")] []).toOption.bind fun font =>
      (font.analyze (some ["prep"]) {}).toOption.map fun a =>
        (a.calls.labels, a.calledFunctions.keys)) = some ([0, 1], [1]) := by
    decide +kernel
  obtain ⟨font, hFont, hRest⟩ := Option.bind_eq_some_iff.mp hEvaluated
  obtain ⟨a, hAnalysis, hLabels⟩ := Option.map_eq_some_iff.mp hRest
  obtain ⟨hGraph, hFound⟩ := Prod.mk.inj hLabels
  refine ⟨font, a, eq_ok_of_toOption hFont, eq_ok_of_toOption hAnalysis, hGraph, hFound, ?_⟩
  intro hComplete
  have hZero := (hComplete.labels 0).mpr (by rw [hGraph]; decide)
  rw [SortedMap.contains_iff_mem_keys, hFound] at hZero
  exact absurd hZero (by decide)

end Analyzed

end Font

end Hinting
