import Hinting.Proofs.CallCounting
import Hinting.Proofs.Nesting
import Mathlib.Algebra.BigOperators.Group.List.Basic

/-!
# Calls counted in 32 bits

Runs and analyses keep graphs whose counts have no bound. Beside them stand counters of 32 bits
that take the same calls, one after the other, as the functions are entered. They hold the graph
as long as every count has room in its counter. A count that has none makes them run over, on the
way as well as at the end, since counts do not fall.
-/

namespace Hinting

open Hinting.Action
open Event

namespace WordGraph

/-- The graph that the counters stand for. -/
def graph (w : WordGraph) : CallGraph :=
  ⟨w.counts.mapValues UInt32.toNat⟩

/-- How much a counter is raised. -/
def increase (before after : WordGraph) (label : Label) : Nat :=
  (after.count label).toNat - (before.count label).toNat

variable {before after : WordGraph} {labels : List Label}

theorem ascending_graph (h : before.counts.Ascending) : before.graph.counts.Ascending :=
  h.mapValues _

theorem toNat_count (w : WordGraph) (label : Label) : (w.count label).toNat = w.graph.count label :=
  Represents.toNat_count rfl label

theorem hold_graph (h : before.counts.Ascending) : Counters.Hold (some before) before.graph := by
  have hGraph : before.Represents before.graph := rfl
  intro w
  rw [Option.some_inj]
  exact ⟨fun hSame => hSame ▸ hGraph, fun hw => hGraph.unique hw (ascending_graph h)⟩

theorem hold_recordAll (h : before.counts.Ascending) (labels : List Label) :
    (Counters.recordAll (some before) labels).Hold (labels.foldl CallGraph.record before.graph) :=
  (hold_graph h).recordAll (ascending_graph h) labels

theorem exists_recordAll_iff (h : before.counts.Ascending) (labels : List Label) :
    (∃ after, Counters.recordAll (some before) labels = some after) ↔
      ∀ label, (before.count label).toNat + labels.count label < 0x100000000 := by
  rw [(hold_recordAll h labels).exists_iff
    (CallGraph.ascending_foldl_record (ascending_graph h) labels)]
  simp only [CallGraph.count_foldl_record (ascending_graph h), toNat_count]

theorem toNat_count_of_recordAll (h : before.counts.Ascending)
    (hAfter : Counters.recordAll (some before) labels = some after) (label : Label) :
    (after.count label).toNat = (before.count label).toNat + labels.count label := by
  rw [((hold_recordAll h labels after).mp hAfter).toNat_count,
    CallGraph.count_foldl_record (ascending_graph h), toNat_count]

theorem increase_of_recordAll (h : before.counts.Ascending)
    (hAfter : Counters.recordAll (some before) labels = some after) (label : Label) :
    before.increase after label = labels.count label := by
  rw [increase, toNat_count_of_recordAll h hAfter, Nat.add_sub_cancel_left]

theorem total_of_recordAll (h : before.counts.Ascending)
    (hAfter : Counters.recordAll (some before) labels = some after) :
    after.total = before.total + labels.length := by
  have hBefore : before.Represents before.graph := rfl
  rw [((hold_recordAll h labels after).mp hAfter).total_eq, CallGraph.total_foldl_record,
    hBefore.total_eq]
  simp

/-- Every call has a counter, and there is one counter for each function. -/
theorem labels_of_recordAll (h : before.counts.Ascending)
    (hAfter : Counters.recordAll (some before) labels = some after) :
    after.labels.Nodup ∧ ∀ label ∈ labels, label ∈ after.labels := by
  have hAfter := (hold_recordAll h labels after).mp hAfter
  have hAscending := CallGraph.ascending_foldl_record (ascending_graph h) labels
  refine ⟨(hAfter.ascending hAscending).nodup_keys, fun label hLabel => ?_⟩
  rw [hAfter.labels_eq, CallGraph.mem_labels_foldl_record]
  exact .inl hLabel

theorem sum_indicator {keys : List Label} (hKeys : keys.Nodup) (label : Label)
    (weight : Label → Nat) :
    (keys.map fun key => if label = key then weight key else 0).sum =
      if label ∈ keys then weight label else 0 := by
  induction keys with
  | nil => rfl
  | cons key rest ih =>
    obtain ⟨hKey, hRest⟩ := List.nodup_cons.mp hKeys
    by_cases hLabel : label = key
    · subst hLabel
      simp [hKey, ih hRest]
    · simp [hLabel, ih hRest]

/-- The weights of calls, added up call by call or function by function. -/
theorem sum_count_mul {keys : List Label} (hKeys : keys.Nodup)
    (hMem : ∀ label ∈ labels, label ∈ keys) (weight : Label → Nat) :
    (keys.map fun key => labels.count key * weight key).sum = (labels.map weight).sum := by
  induction labels with
  | nil => simp
  | cons label rest ih =>
    rw [List.forall_mem_cons] at hMem
    simp only [List.count_cons, beq_iff_eq, Nat.add_mul, ite_mul, Nat.one_mul, Nat.zero_mul]
    rw [List.sum_map_add, ih hMem.2, sum_indicator hKeys, if_pos hMem.1, List.map_cons,
      List.sum_cons, Nat.add_comm]

theorem sum_increase_mul (h : before.counts.Ascending)
    (hAfter : Counters.recordAll (some before) labels = some after) (weight : Label → Nat) :
    (after.labels.map fun label => before.increase after label * weight label).sum =
      (labels.map weight).sum := by
  obtain ⟨hNodup, hMem⟩ := labels_of_recordAll h hAfter
  simp only [increase_of_recordAll h hAfter]
  exact sum_count_mul hNodup hMem weight

end WordGraph

/-- What becomes of counters when a run counts in them the functions that it enters. -/
def Run.countInto (r : Run) (c : Counters) : Counters :=
  c.recordAll (entered r.trace)

namespace Font

theorem calls_run (font : Font) (options : RunOptions) (tag : String) (env : Environment) :
    (font.run options tag env).calls =
      (entered (font.run options tag env).trace).foldl CallGraph.record .empty := by
  cases hProgram : font.programs.get? tag with
  | none =>
    rw [run_of_unknown hProgram]
    rfl
  | some program => exact (run_records hProgram options env).calls

theorem ascending_calls_run (font : Font) (options : RunOptions) (tag : String)
    (env : Environment) : (font.run options tag env).calls.counts.Ascending := by
  rw [calls_run]
  exact CallGraph.ascending_foldl_record .empty _

theorem hold_countInto {c : Counters} {g : CallGraph} (hc : c.Hold g) (hg : g.counts.Ascending)
    (font : Font) (options : RunOptions) (tag : String) (env : Environment) :
    ((font.run options tag env).countInto c).Hold
      (g.merge (font.run options tag env).calls) := by
  rw [calls_run, CallGraph.merge_foldl_record hg]
  exact hc.recordAll hg _

end Font

/-- What a finished run of `body` does to counters that stood at `before`: they take its calls if
each of them has room, and tell the number of statements when both arms were taken. -/
structure Run.Counted (policy : BranchPolicy) (functions : FunctionTable) (body : Body)
    (before : WordGraph) (run : Run) : Prop where
  room : (∃ after, run.countInto (some before) = some after) ↔
    ∀ label, (before.count label).toNat + (entered run.trace).count label < 0x100000000
  calls : ∀ after, run.countInto (some before) = some after →
    ∀ label, (after.count label).toNat =
      (before.count label).toNat + (entered run.trace).count label
  size : ∀ after, run.countInto (some before) = some after → policy = .bothArms →
    run.executed = body.size +
      (after.labels.map fun label => before.increase after label * functions.bodySize label).sum

theorem Run.Covers.counted {policy : BranchPolicy} {functions : FunctionTable} {body : Body}
    {run : Run} (h : run.Covers policy functions body) {before : WordGraph}
    (hBefore : before.counts.Ascending) : run.Counted policy functions body before where
  room := WordGraph.exists_recordAll_iff hBefore _
  calls _ hAfter := WordGraph.toNat_count_of_recordAll hBefore hAfter
  size after hAfter hPolicy := by
    rw [h.size hPolicy, WordGraph.sum_increase_mul hBefore hAfter]

/-- A run that comes to its end has applied what its body and the functions entered ask for, and
32-bit counters tell how much that is, unless one of them has run over. -/
theorem Session.execute_covers (session : Session) (font : Font) (tag : String)
    (env : Environment) {called : LabelSet}
    (hOk : (session.execute font tag env).1.result = .ok called) :
    ∃ program, font.programs.get? tag = some program ∧
      (session.execute font tag env).1.Covers session.options.branchPolicy env.functions
        program.body ∧
      (session.execute font tag env).1.log.getLast? =
        some (.executed tag (session.execute font tag env).1.executed called.size) ∧
      ∀ before : WordGraph, before.counts.Ascending →
        (session.execute font tag env).1.Counted session.options.branchPolicy env.functions
          program.body before ∧
        (before.Represents session.calls → ∀ after,
          (session.execute font tag env).1.countInto (some before) = some after ↔
            after.Represents (session.execute font tag env).2.calls) := by
  obtain ⟨program, state, hProgram, hBody, hRun⟩ := Font.run_eq_finished hOk
  have hCovers : (session.execute font tag env).1.Covers session.options.branchPolicy
      env.functions program.body := by
    rw [Session.execute, hRun]
    exact RunState.covers_finished hBody
  refine ⟨program, hProgram, hCovers, ?_, fun before hBefore =>
    ⟨hCovers.counted hBefore, fun hSession after => ?_⟩⟩
  · rw [Run.log, hOk, List.getLast?_append]
    exact congrArg (fun program => some (LogRecord.executed program _ _))
      (font.run_program session.options tag env)
  · have hGraph : before.graph = session.calls := congrArg CallGraph.mk hSession
    have hHold : Counters.Hold (some before) session.calls := hGraph ▸ WordGraph.hold_graph hBefore
    exact Font.hold_countInto hHold (hGraph ▸ WordGraph.ascending_graph hBefore) font _ tag env
      after

/-- Nested branches, one without an ELSE, and a function that is called from both arms and
from another function. Its counter has room for these two calls and no more. -/
theorem Session.execute_covers_nested_branches :
    ∃ (session : Session) (font : Font) (called : LabelSet) (before after : WordGraph),
      session.options.branchPolicy = .bothArms ∧
      Font.load
        [("fpgm", "PUSHB[ ] 1 0 FDEF[ ] PUSHB[ ] 1 CALL[ ] ENDF[ ] FDEF[ ] SVTCA[0] ENDF[ ]"),
          ("A", "MPPEM[ ] IF[ ] PUSHB[ ] 0 CALL[ ] MPPEM[ ] IF[ ] EIF[ ] " ++
            "ELSE[ ] PUSHB[ ] 1 CALL[ ] EIF[ ]")]
        [] = .ok font ∧
      (session.execute font "A" font.initialEnvironment).1.result = .ok called ∧
      (session.execute font "A" font.initialEnvironment).1.executed = 15 ∧
      before.counts.entries = [(1, 0xFFFFFFFD)] ∧ before.counts.Ascending ∧
      before.Represents session.calls ∧
      (session.execute font "A" font.initialEnvironment).1.countInto (some before) = some after ∧
      after.counts.entries = [(0, 1), (1, 0xFFFFFFFF)] ∧
      after.Represents (session.execute font "A" font.initialEnvironment).2.calls ∧
      ∃ program, font.programs.get? "A" = some program ∧
        (session.execute font "A" font.initialEnvironment).1.Covers session.options.branchPolicy
          font.initialEnvironment.functions program.body ∧
        (session.execute font "A" font.initialEnvironment).1.log.getLast? =
          some (.executed "A" (session.execute font "A" font.initialEnvironment).1.executed
            called.size) ∧
        (session.execute font "A" font.initialEnvironment).1.Counted session.options.branchPolicy
          font.initialEnvironment.functions program.body before := by
  let session : Session :=
    { options := { branchPolicy := .bothArms }, calls := ⟨⟨[(1, 0xFFFFFFFD)]⟩⟩ }
  let before : WordGraph := ⟨⟨[(1, 0xFFFFFFFD)]⟩⟩
  have hEvaluated : ((Font.load
      [("fpgm", "PUSHB[ ] 1 0 FDEF[ ] PUSHB[ ] 1 CALL[ ] ENDF[ ] FDEF[ ] SVTCA[0] ENDF[ ]"),
        ("A", "MPPEM[ ] IF[ ] PUSHB[ ] 0 CALL[ ] MPPEM[ ] IF[ ] EIF[ ] " ++
          "ELSE[ ] PUSHB[ ] 1 CALL[ ] EIF[ ]")]
      []).toOption.bind fun font =>
        (session.execute font "A" font.initialEnvironment).1.result.toOption.bind fun _ =>
          ((session.execute font "A" font.initialEnvironment).1.countInto (some before)).map
            fun after => (after.counts.entries,
              (session.execute font "A" font.initialEnvironment).1.executed)) =
      some ([(0, 1), (1, 0xFFFFFFFF)], 15) := by
    decide +kernel
  obtain ⟨font, hFont, hRest⟩ := Option.bind_eq_some_iff.mp hEvaluated
  obtain ⟨called, hResult, hLast⟩ := Option.bind_eq_some_iff.mp hRest
  obtain ⟨after, hAfter, hValues⟩ := Option.map_eq_some_iff.mp hLast
  obtain ⟨hEntries, hExecuted⟩ := Prod.mk.inj hValues
  have hOk := eq_ok_of_toOption hResult
  have hBefore : before.counts.Ascending := List.pairwise_singleton _ _
  have hSession : before.Represents session.calls := rfl
  obtain ⟨program, hProgram, hCovers, hLog, hCounts⟩ := session.execute_covers font "A" _ hOk
  obtain ⟨hCounted, hTogether⟩ := hCounts before hBefore
  exact ⟨session, font, called, before, after, rfl, eq_ok_of_toOption hFont, hOk, hExecuted, rfl,
    hBefore, hSession, hAfter, hEntries, (hTogether hSession after).mp hAfter, program, hProgram,
    hCovers, hLog, hCounted⟩

namespace Font

/-- What the counters of an analysis come to, which counts the calls of all its runs. -/
def counters (font : Font) (glyphs : Option (List String)) (options : RunOptions) : Counters :=
  (font.analysisRuns options (font.controlValueRun? options) glyphs).foldl
    (fun c run => run.countInto c) (some {})

/-- An analysis succeeds, and none of its counters has run over. -/
structure Analyzes (font : Font) (glyphs : Option (List String)) (options : RunOptions)
    (a : Analysis) (w : WordGraph) : Prop where
  ok : font.analyze glyphs options = .ok a
  counted : font.counters glyphs options = some w

variable {font : Font} {glyphs : Option (List String)} {options : RunOptions} {a : Analysis}

theorem exists_run_of_mem_plannedRuns {run : Run} (h : run ∈ font.plannedRuns options glyphs) :
    ∃ tag env, run = font.run options tag env := by
  rcases List.mem_append.mp h with hRun | hRun
  · have hControl := Option.mem_toList.mp hRun
    unfold controlValueRun? at hControl
    split at hControl
    · cases hControl
      exact ⟨_, _, rfl⟩
    · cases hControl
  · obtain ⟨tag, _, rfl⟩ := List.mem_map.mp hRun
    exact ⟨tag, _, rfl⟩

theorem hold_counters (h : font.analyze glyphs options = .ok a) :
    (font.counters glyphs options).Hold a.calls := by
  have hFold (runs : List Run) (hRuns : ∀ run ∈ runs, ∃ tag env, run = font.run options tag env)
      {start : Analysis} {c : Counters} (hStart : c.Hold start.calls)
      (hAscending : start.calls.counts.Ascending)
      (hOk : runs.foldlM Analysis.add start = .ok a) :
      (runs.foldl (fun c run => run.countInto c) c).Hold a.calls := by
    induction runs generalizing start c with
    | nil =>
      cases hOk
      exact hStart
    | cons run rest ih =>
      rw [List.forall_mem_cons] at hRuns
      obtain ⟨⟨tag, env, rfl⟩, hRest⟩ := hRuns
      obtain ⟨next, hAdd, hLast⟩ := foldlM_cons_eq_ok_iff.mp hOk
      obtain ⟨called, _, rfl⟩ := Analysis.add_eq_ok hAdd
      exact ih hRest (hold_countInto hStart hAscending font options tag env)
        (CallGraph.ascending_merge hAscending _) hLast
  rw [counters, analysisRuns_of_analyze h]
  rw [analyze_eq_foldlM] at h
  exact hFold _ (fun run => exists_run_of_mem_plannedRuns) .empty .empty h

theorem Analyzes.represents {w : WordGraph} (h : font.Analyzes glyphs options a w) :
    w.Represents a.calls :=
  (hold_counters h.ok w).mp h.counted

end Font

end Hinting
