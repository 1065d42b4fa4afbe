import Hinting.Proofs.Reachability
import Hinting.Proofs.RunSimulation

/-!
# Fonts with the same analysis

One font serves as another when it has the same programs and control values, and its
functions have the same effects as far as they are in use. Each run of the other font is
then followed step by step, on environments that differ in their function tables only, so
the analyses are the same.
-/

namespace Hinting

open Hinting.Action

/-- The environments differ in their function tables only. -/
def Environment.Exchanged (functions original : FunctionTable) (e f : Environment) : Prop :=
  e = f.withFunctions functions ∧ f.functions = original

/-- With functions of the same effects in place of those in use, a run fares the same. -/
theorem Simulation.exchanged (axisCount : Nat) {used : Label → Prop}
    {functions original : FunctionTable}
    (h : ∀ label d, used label → original.get? label = some d →
      ∃ d', functions.get? label = some d' ∧ d'.body.block.Alike d.body.block) :
    Simulation axisCount used (fun _ => False) (Environment.Exchanged functions original) where
  perform := by
    rintro s _ env ⟨rfl, hOriginal⟩ target env' hPerform
    refine .inl ⟨target, env'.withFunctions functions, ?_, rfl, rfl, ?_⟩
    · rw [Statement.perform_ignores, hPerform, mapState]
    · rw [Statement.perform_functions hPerform, hOriginal]
  lookup := by
    rintro _ env ⟨rfl, rfl⟩ label d hLabel hLookup
    exact h label d hLabel hLookup
  peak := by
    rintro _ env ⟨rfl, _⟩
    rfl

namespace Run.Agrees

variable {R : Environment → Environment → Prop}

theorem failed {r q : Run} (h : r.Agrees R q) : r.failed = q.failed := by
  rw [Run.failed, h.result, Run.failed]

theorem add {r q : Run} (h : r.Agrees R q) (a : Analysis) : a.add r = a.add q := by
  rw [Analysis.add, Analysis.add, h.result, h.program, h.calls, h.peak]

theorem foldlM_add {runs others : List Run} (h : List.Forall₂ (Run.Agrees R) runs others)
    (a : Analysis) : runs.foldlM Analysis.add a = others.foldlM Analysis.add a := by
  induction h generalizing a with
  | nil => rfl
  | cons hFirst _ ih =>
    rw [List.foldlM_cons, List.foldlM_cons, hFirst.add a, funext ih]

theorem runsOn {font other : Font} {options : RunOptions} {env env' : Environment}
    {tags : List String}
    (h : ∀ tag ∈ tags, (font.run options tag env).Agrees R (other.run options tag env')) :
    List.Forall₂ (Run.Agrees R) (font.runsOn options env tags)
      (other.runsOn options env' tags) := by
  induction tags with
  | nil => exact .nil
  | cons tag rest ih =>
    have hFirst := h tag List.mem_cons_self
    simp only [Font.runsOn, hFirst.failed]
    refine .cons hFirst ?_
    split
    · exact .nil
    · exact ih fun next hNext => h next (List.mem_cons_of_mem tag hNext)

end Run.Agrees

namespace Font

/-- A font that can stand for another one as long as only functions in use are called. -/
structure Serves (used : LabelSet) (font other : Font) : Prop where
  keys : font.programs.keys = other.programs.keys
  bodies : ∀ tag,
    (font.programs.get? tag).map (·.body) = (other.programs.get? tag).map (·.body)
  cvt : font.cvt = other.cvt
  functions : ∀ label d, used.contains label = true → other.functions.get? label = some d →
    ∃ d', font.functions.get? label = some d' ∧ d'.body.block.Alike d.body.block

namespace Serves

variable {used : LabelSet} {font other : Font}

theorem selectedTags (h : Serves used font other) (glyphs : Option (List String)) :
    font.selectedTags glyphs = other.selectedTags glyphs := by
  rw [Font.selectedTags, Font.selectedTags, Font.glyphTags, Font.glyphTags, h.keys]

theorem initialEnvironment (h : Serves used font other) :
    Environment.Exchanged font.functions other.functions font.initialEnvironment
      other.initialEnvironment := by
  refine ⟨?_, rfl⟩
  rw [Font.initialEnvironment, Font.initialEnvironment, h.cvt]
  rfl

theorem run (h : Serves used font other) {options : RunOptions} {tag : String}
    {env env' : Environment}
    (hEnv : Environment.Exchanged font.functions other.functions env env') {called : LabelSet}
    (hOk : (other.run options tag env').result = .ok called)
    (hUsed : ∀ label, called.contains label = true → used.contains label = true) :
    (font.run options tag env).Agrees (Environment.Exchanged font.functions other.functions)
      (other.run options tag env') := by
  have hSimulation := Simulation.exchanged options.axisCount h.functions
  rcases hSimulation.run (h.bodies tag) hEnv hOk hUsed with hAgrees | ⟨_, _, hFalse⟩
  · exact hAgrees
  · exact hFalse.elim

theorem contains (h : Serves used font other) (tag : String) :
    font.programs.contains tag = other.programs.contains tag := by
  rw [Bool.eq_iff_iff, SortedMap.contains_iff_mem_keys, SortedMap.contains_iff_mem_keys, h.keys]

theorem glyphEnvironment (h : Serves used font other) {options : RunOptions}
    (hRun : ∀ run, other.controlValueRun? options = some run →
      (font.run options controlValueProgramTag font.initialEnvironment).Agrees
        (Environment.Exchanged font.functions other.functions) run) :
    Environment.Exchanged font.functions other.functions
      (font.glyphEnvironment (font.controlValueRun? options))
      (other.glyphEnvironment (other.controlValueRun? options)) := by
  have hClear {e f : Environment} (hExchanged : Environment.Exchanged font.functions
      other.functions e f) : Environment.Exchanged font.functions other.functions
        { e with stack := e.stack.clear } { f with stack := f.stack.clear } := by
    obtain ⟨rfl, hOriginal⟩ := hExchanged
    exact ⟨rfl, hOriginal⟩
  unfold controlValueRun? at hRun ⊢
  rw [h.contains]
  split
  · rename_i hProgram
    rw [if_pos hProgram] at hRun
    exact hClear (hRun _ rfl).env
  · exact hClear h.initialEnvironment

theorem analysisRuns (h : Serves used font other) {options : RunOptions}
    {glyphs : Option (List String)}
    (hRun : ∀ run, other.controlValueRun? options = some run →
      (font.run options controlValueProgramTag font.initialEnvironment).Agrees
        (Environment.Exchanged font.functions other.functions) run)
    (hRuns : ∀ tag ∈ other.selectedTags glyphs,
      (font.run options tag (font.glyphEnvironment (font.controlValueRun? options))).Agrees
        (Environment.Exchanged font.functions other.functions)
        (other.run options tag (other.glyphEnvironment (other.controlValueRun? options)))) :
    List.Forall₂ (Run.Agrees (Environment.Exchanged font.functions other.functions))
      (font.analysisRuns options (font.controlValueRun? options) glyphs)
      (other.analysisRuns options (other.controlValueRun? options) glyphs) := by
  have hGlyphs := Run.Agrees.runsOn hRuns
  unfold Font.analysisRuns
  rw [h.selectedTags]
  generalize font.glyphEnvironment (font.controlValueRun? options) = env at hGlyphs ⊢
  generalize other.glyphEnvironment (other.controlValueRun? options) = env' at hGlyphs ⊢
  unfold controlValueRun? at hRun ⊢
  rw [h.contains]
  by_cases hProgram : other.programs.contains controlValueProgramTag = true
  · simp only [if_pos hProgram] at hRun ⊢
    have hFirst := hRun _ rfl
    rw [hFirst.failed]
    refine .cons hFirst ?_
    split
    · exact .nil
    · exact hGlyphs
  · simp only [if_neg hProgram]
    exact hGlyphs

/-- A font that serves as another has the same analysis. -/
theorem analyze (h : Serves used font other) {options : RunOptions}
    {glyphs : Option (List String)} {a : Analysis} (hOk : other.analyze glyphs options = .ok a)
    (hUsed : ∀ run ∈ other.analysisRuns options (other.controlValueRun? options) glyphs,
      ∀ label ∈ run.calls.labels, used.contains label = true) :
    font.analyze glyphs options = .ok a := by
  -- every run of the other font succeeded and called functions in use only
  have hFollowed {run : Run}
      (hMem : run ∈ other.analysisRuns options (other.controlValueRun? options) glyphs) :
      ∃ called, run.result = .ok called ∧
        ∀ label, called.contains label = true → used.contains label = true := by
    obtain ⟨called, _, hResult, _, hLabels, _⟩ := recorded_of_mem_analysisRuns hOk hMem
    exact ⟨called, hResult, fun label hLabel => hUsed run hMem label ((hLabels label).mp hLabel)⟩
  have hRun : ∀ run, other.controlValueRun? options = some run →
      (font.run options controlValueProgramTag font.initialEnvironment).Agrees
        (Environment.Exchanged font.functions other.functions) run := by
    intro run hRun
    obtain ⟨called, hResult, hCalled⟩ := hFollowed ((mem_analysisRuns_iff hOk run).mpr (.inl hRun))
    obtain rfl := exists_of_controlValueRun? hRun
    exact h.run h.initialEnvironment hResult hCalled
  have hEnv := h.glyphEnvironment hRun
  have hRuns := h.analysisRuns hRun fun tag hTag => by
    obtain ⟨called, hResult, hCalled⟩ :=
      hFollowed ((mem_analysisRuns_iff hOk _).mpr (.inr ⟨tag, hTag, rfl⟩))
    exact h.run hEnv hResult hCalled
  have hGraphics : (font.glyphEnvironment (font.controlValueRun? options)).graphics =
      (other.glyphEnvironment (other.controlValueRun? options)).graphics := by
    rw [hEnv.1]
    rfl
  have hCvt : (font.glyphEnvironment (font.controlValueRun? options)).cvt =
      (other.glyphEnvironment (other.controlValueRun? options)).cvt := by
    rw [hEnv.1]
    rfl
  rw [Font.analyze, Run.Agrees.foldlM_add hRuns, hGraphics, hCvt]
  exact hOk

end Serves

end Font

end Hinting
