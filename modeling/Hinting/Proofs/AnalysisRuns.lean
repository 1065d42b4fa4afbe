import Hinting.Analysis
import Hinting.Proofs.Lookup
import Hinting.Proofs.RunStep

/-!
# What an analysis says about its runs

An analysis that succeeds has run the control value program, if there is one, and then
every selected program on one environment. Of each program it keeps the functions that
the last of its runs called, and of all runs the calls.
-/

namespace Hinting

open Hinting.Action

namespace CallGraph

@[simp]
theorem mem_labels_add (g : CallGraph) (label other : Label) (calls : Nat) :
    other ∈ (g.add label calls).labels ↔ other = label ∨ other ∈ g.labels :=
  SortedMap.mem_keys_update g.counts label other _

@[simp]
theorem mem_labels_merge (g h : CallGraph) (label : Label) :
    label ∈ (g.merge h).labels ↔ label ∈ g.labels ∨ label ∈ h.labels := by
  obtain ⟨⟨entries⟩⟩ := h
  simp only [merge, toList, labels, SortedMap.keys]
  induction entries generalizing g with
  | nil => simp
  | cons entry rest ih =>
    obtain ⟨first, calls⟩ := entry
    have hAdd := mem_labels_add g first label calls
    simp only [labels, SortedMap.keys] at hAdd
    rw [List.foldl_cons, ih, hAdd, List.map_cons, List.mem_cons, or_left_comm, or_assoc]

end CallGraph

namespace Run

theorem failed_eq_false_iff (r : Run) : r.failed = false ↔ ∃ called, r.result = .ok called := by
  unfold failed
  cases r.result with
  | ok called => simp
  | error error => simp

theorem failed_eq_true_iff (r : Run) : r.failed = true ↔ ∃ error, r.result = .error error := by
  unfold failed
  cases r.result with
  | ok called => simp
  | error error => simp

end Run

/-- The last run of a program among some runs. -/
def lastRun? (runs : List Run) (tag : String) : Option Run :=
  runs.reverse.find? fun run => run.program = tag

theorem lastRun?_append_singleton (runs : List Run) (run : Run) (tag : String) :
    lastRun? (runs ++ [run]) tag = if run.program = tag then some run else lastRun? runs tag := by
  rw [lastRun?, List.reverse_append, List.reverse_singleton, List.singleton_append,
    List.find?_cons]
  by_cases hTag : run.program = tag
  · simp [hTag]
  · simp [hTag, lastRun?]

theorem lastRun?_append (runs later : List Run) (tag : String) :
    lastRun? (runs ++ later) tag = (lastRun? later tag).or (lastRun? runs tag) := by
  rw [lastRun?, List.reverse_append, List.find?_append]
  rfl

theorem mem_of_lastRun? {runs : List Run} {tag : String} {run : Run}
    (h : lastRun? runs tag = some run) : run ∈ runs ∧ run.program = tag :=
  ⟨List.mem_reverse.mp (List.mem_of_find?_eq_some h), by simpa using List.find?_some h⟩

namespace Analysis

/-- What an analysis holds after some runs. -/
structure Summarizes (a : Analysis) (runs : List Run) : Prop where
  calls : ∀ label, label ∈ a.calls.labels ↔ ∃ run ∈ runs, label ∈ run.calls.labels
  programCalls : ∀ tag, a.programCalls.get? tag = (lastRun? runs tag).bind (·.result.toOption)
  ascending : a.programCalls.Ascending
  succeeded : ∀ run ∈ runs, ∃ called, run.result = .ok called

theorem add_eq_ok {a b : Analysis} {r : Run} (h : a.add r = .ok b) :
    ∃ called, r.result = .ok called ∧ b = { a with
      programCalls := a.programCalls.insert r.program called
      calls := a.calls.merge r.calls
      peak := max a.peak r.peak } := by
  unfold add at h
  cases hResult : r.result with
  | error error => rw [hResult] at h; cases h
  | ok called =>
    rw [hResult] at h
    cases h
    exact ⟨called, rfl, rfl⟩

theorem add_of_ok (a : Analysis) {r : Run} {called : LabelSet} (h : r.result = .ok called) :
    a.add r = .ok { a with
      programCalls := a.programCalls.insert r.program called
      calls := a.calls.merge r.calls
      peak := max a.peak r.peak } := by
  rw [add, h]
  rfl

theorem add_of_error (a : Analysis) {r : Run} {error : ExecutionError}
    (h : r.result = .error error) : a.add r = .error error := by
  rw [add, h]
  rfl

theorem Summarizes.add {a b : Analysis} {runs : List Run} (h : a.Summarizes runs) {r : Run}
    (hOk : a.add r = .ok b) : b.Summarizes (runs ++ [r]) := by
  obtain ⟨called, hResult, rfl⟩ := add_eq_ok hOk
  refine ⟨fun label => ?_, fun tag => ?_, h.ascending.insert _ _, fun run hRun => ?_⟩
  · rw [CallGraph.mem_labels_merge, h.calls]
    simp [or_and_right, exists_or]
  · rw [lastRun?_append_singleton]
    by_cases hTag : r.program = tag
    · subst hTag
      simp [hResult, Except.toOption]
    · rw [if_neg hTag, SortedMap.get?_insert_of_ne _ (Ne.symm hTag), h.programCalls]
  · rcases List.mem_append.mp hRun with hRun | hRun
    · exact h.succeeded run hRun
    · rw [List.mem_singleton.mp hRun]
      exact ⟨called, hResult⟩

theorem Summarizes.foldlM {a b : Analysis} {runs done : List Run} (h : a.Summarizes done)
    (hOk : runs.foldlM Analysis.add a = .ok b) : b.Summarizes (done ++ runs) := by
  induction runs generalizing a done with
  | nil =>
    cases hOk
    simpa using h
  | cons run rest ih =>
    obtain ⟨next, hAdd, hRest⟩ := foldlM_cons_eq_ok_iff.mp hOk
    simpa using ih (h.add hAdd) hRest

theorem contains_calledFunctions_iff {a : Analysis} (h : a.programCalls.Ascending) (label : Label) :
    a.calledFunctions.contains label = true ↔
      ∃ tag called, a.programCalls.get? tag = some called ∧ called.contains label = true := by
  have hFold (entries : List (String × LabelSet)) (labels : LabelSet) :
      (entries.foldl (fun labels entry => SortedSet.union labels entry.2) labels).contains
          label = true ↔
        labels.contains label = true ∨ ∃ entry ∈ entries, entry.2.contains label = true := by
    induction entries generalizing labels with
    | nil => simp
    | cons entry rest ih =>
      rw [List.foldl_cons, ih, SortedSet.contains_union]
      simp [or_assoc]
  have hCalled : a.calledFunctions =
      a.programCalls.entries.foldl (fun labels entry => SortedSet.union labels entry.2) {} := rfl
  rw [hCalled, hFold]
  simp only [h.get?_eq_some_iff]
  constructor
  · rintro (hEmpty | ⟨⟨tag, called⟩, hMem, hCalled⟩)
    · cases hEmpty
    · exact ⟨tag, called, hMem, hCalled⟩
  · rintro ⟨tag, called, hMem, hCalled⟩
    exact .inr ⟨(tag, called), hMem, hCalled⟩

end Analysis

namespace Font

variable {font : Font} {options : RunOptions}

theorem runsOn_eq_map {env : Environment} {tags : List String}
    (h : ∀ run ∈ font.runsOn options env tags, run.failed = false) :
    font.runsOn options env tags = tags.map fun tag => font.run options tag env := by
  induction tags with
  | nil => rfl
  | cons tag rest ih =>
    have hFirst : (font.run options tag env).failed = false :=
      h (font.run options tag env) List.mem_cons_self
    simp only [runsOn, hFirst] at h ⊢
    rw [List.map_cons]
    exact congrArg _ (ih fun run hRun => h run (List.mem_cons_of_mem _ hRun))

theorem analysisRuns_eq {controlValueRun? : Option Run} {glyphs : Option (List String)}
    (h : ∀ run ∈ font.analysisRuns options controlValueRun? glyphs, run.failed = false) :
    font.analysisRuns options controlValueRun? glyphs = controlValueRun?.toList ++
      (font.selectedTags glyphs).map fun tag =>
        font.run options tag (font.glyphEnvironment controlValueRun?) := by
  cases controlValueRun? with
  | none => exact runsOn_eq_map h
  | some run =>
    have hFirst : run.failed = false := h run List.mem_cons_self
    simp only [analysisRuns, hFirst] at h ⊢
    exact congrArg _ (runsOn_eq_map fun other hOther => h other (List.mem_cons_of_mem _ hOther))

/-- The runs of an analysis in order, also those that would come after a failure. -/
def plannedRuns (font : Font) (options : RunOptions) (glyphs : Option (List String)) : List Run :=
  (font.controlValueRun? options).toList ++ (font.selectedTags glyphs).map fun tag =>
    font.run options tag (font.glyphEnvironment (font.controlValueRun? options))

theorem foldlM_add_runsOn (env : Environment) (tags : List String) (a : Analysis) :
    (font.runsOn options env tags).foldlM Analysis.add a =
      (tags.map fun tag => font.run options tag env).foldlM Analysis.add a := by
  induction tags generalizing a with
  | nil => rfl
  | cons tag rest ih =>
    rw [runsOn, List.map_cons, List.foldlM_cons, List.foldlM_cons]
    split
    · rename_i hFailed
      obtain ⟨error, hError⟩ := (Run.failed_eq_true_iff _).mp hFailed
      rw [a.add_of_error hError]
      rfl
    · rw [funext ih]

/-- Stopping at the first failure makes no difference to what is found. -/
theorem analyze_eq_foldlM (font : Font) (options : RunOptions) (glyphs : Option (List String)) :
    font.analyze glyphs options = (font.plannedRuns options glyphs).foldlM Analysis.add
      { graphics := (font.glyphEnvironment (font.controlValueRun? options)).graphics
        cvt := (font.glyphEnvironment (font.controlValueRun? options)).cvt } := by
  unfold analyze plannedRuns analysisRuns
  cases font.controlValueRun? options with
  | none => exact foldlM_add_runsOn _ _ _
  | some run =>
    simp only [Option.toList_some, List.singleton_append, List.foldlM_cons]
    split
    · rename_i hFailed
      obtain ⟨error, hError⟩ := run.failed_eq_true_iff.mp hFailed
      rw [Analysis.add_of_error _ hError]
      rfl
    · rw [funext fun a => foldlM_add_runsOn _ _ a]

theorem summarizes_of_analyze {glyphs : Option (List String)} {a : Analysis}
    (h : font.analyze glyphs options = .ok a) :
    a.Summarizes (font.analysisRuns options (font.controlValueRun? options) glyphs) := by
  have hStart : Analysis.Summarizes
      { graphics := (font.glyphEnvironment (font.controlValueRun? options)).graphics
        cvt := (font.glyphEnvironment (font.controlValueRun? options)).cvt } [] := by
    refine ⟨fun label => ?_, fun _ => rfl, .empty, fun _ hRun => nomatch hRun⟩
    simp [CallGraph.labels, SortedMap.keys]
  simpa using hStart.foldlM h

theorem analysisRuns_of_analyze {glyphs : Option (List String)} {a : Analysis}
    (h : font.analyze glyphs options = .ok a) :
    font.analysisRuns options (font.controlValueRun? options) glyphs =
      (font.controlValueRun? options).toList ++ (font.selectedTags glyphs).map fun tag =>
        font.run options tag (font.glyphEnvironment (font.controlValueRun? options)) :=
  analysisRuns_eq fun run hRun =>
    run.failed_eq_false_iff.mpr ((summarizes_of_analyze h).succeeded run hRun)

theorem succeeded_of_analyze {glyphs : Option (List String)} {a : Analysis}
    (h : font.analyze glyphs options = .ok a) :
    ∀ run ∈ font.plannedRuns options glyphs, ∃ called, run.result = .ok called := by
  have hSucceeded := (summarizes_of_analyze h).succeeded
  rwa [analysisRuns_of_analyze h] at hSucceeded

theorem lastRun?_of_mem_selectedTags {glyphs : Option (List String)} {a : Analysis}
    (h : font.analyze glyphs options = .ok a) {tag : String}
    (hTag : tag ∈ font.selectedTags glyphs) :
    lastRun? (font.analysisRuns options (font.controlValueRun? options) glyphs) tag =
      some (font.run options tag (font.glyphEnvironment (font.controlValueRun? options))) := by
  rw [analysisRuns_of_analyze h, lastRun?_append]
  generalize font.glyphEnvironment (font.controlValueRun? options) = env
  cases hLast : lastRun? ((font.selectedTags glyphs).map fun tag => font.run options tag env)
      tag with
  | none =>
    have hNone := List.find?_eq_none.mp hLast (font.run options tag env)
      (List.mem_reverse.mpr (List.mem_map_of_mem hTag))
    simp [run_program] at hNone
  | some run =>
    obtain ⟨hRun, hProgram⟩ := mem_of_lastRun? hLast
    obtain ⟨other, _, rfl⟩ := List.mem_map.mp hRun
    rw [run_program] at hProgram
    rw [hProgram, Option.some_or]

theorem lastRun?_map_run_of_not_mem {tags : List String} {tag : String} (hTag : tag ∉ tags)
    (env : Environment) :
    lastRun? (tags.map fun tag => font.run options tag env) tag = none := by
  refine List.find?_eq_none.mpr fun run hRun => ?_
  obtain ⟨other, hMem, rfl⟩ := List.mem_map.mp (List.mem_reverse.mp hRun)
  rw [run_program]
  intro hEq
  exact hTag (of_decide_eq_true hEq ▸ hMem)

theorem lastRun?_controlValueRun {glyphs : Option (List String)} {a : Analysis}
    (h : font.analyze glyphs options = .ok a)
    (hTag : controlValueProgramTag ∉ font.selectedTags glyphs) {run : Run}
    (hRun : font.controlValueRun? options = some run) :
    lastRun? (font.analysisRuns options (font.controlValueRun? options) glyphs)
      controlValueProgramTag = some run := by
  have hProgram : run.program = controlValueProgramTag := by
    unfold controlValueRun? at hRun
    split at hRun
    · cases hRun
      exact run_program _ _ _ _
    · cases hRun
  rw [analysisRuns_of_analyze h, lastRun?_append, lastRun?_map_run_of_not_mem hTag, hRun,
    Option.none_or]
  simp [lastRun?, hProgram]

theorem get?_setCalled (font : Font) (tag other : String) (called : LabelSet) :
    (font.setCalled tag called).programs.get? other =
      if other = tag then (font.programs.get? tag).map fun program => { program with called }
      else font.programs.get? other := by
  unfold setCalled
  cases hProgram : font.programs.get? tag with
  | none =>
    by_cases hTag : other = tag
    · rw [if_pos hTag, hTag, hProgram, Option.map_none]
    · rw [if_neg hTag]
  | some program =>
    by_cases hTag : other = tag
    · rw [if_pos hTag, hTag, Option.map_some]
      exact SortedMap.get?_insert_self _ _ _
    · rw [if_neg hTag]
      exact SortedMap.get?_insert_of_ne _ hTag _

theorem get?_withCalls (font : Font) {a : Analysis} (h : a.programCalls.Ascending) (tag : String) :
    (font.withCalls a).programs.get? tag = (font.programs.get? tag).map fun program =>
      { program with called := (a.programCalls.get? tag).getD program.called } := by
  obtain ⟨⟨entries⟩, calls, peak, graphics, cvt⟩ := a
  simp only [withCalls, SortedMap.Ascending] at h ⊢
  induction entries generalizing font with
  | nil => exact Option.map_id'.symm
  | cons entry rest ih =>
    obtain ⟨first, called⟩ := entry
    have hAbsent := SortedMap.Ascending.get?_rest h
    rw [List.foldl_cons, ih _ (List.pairwise_cons.mp h).2, get?_setCalled, SortedMap.get?_cons]
    by_cases hTag : tag = first
    · subst hTag
      simp [hAbsent, Function.comp_def]
    · simp [hTag]

end Font

end Hinting
