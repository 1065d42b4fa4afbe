import Hinting.Proofs.AnalysisRuns
import Hinting.Proofs.FontProgram
import Hinting.Proofs.Nesting

/-!
# How many statements a run can apply

An activation applies each statement of its body at most once, and a call needs a function
that is not being executed. So the bodies bound how many statements a run can apply, whatever
the limits and the arms taken. Calls refer to the functions of the environment, so these
count and not those of the font.
-/

namespace Hinting

open Hinting.Action

theorem SortedMap.mem_of_get? {α β : Type} [Ord α] {m : SortedMap α β} {key : α} {value : β}
    (h : m.get? key = some value) : ∃ key', (key', value) ∈ m.entries := by
  obtain ⟨entry, hFind, rfl⟩ := Option.map_eq_some_iff.mp h
  exact ⟨entry.1, List.mem_of_find?_eq_some hFind⟩

namespace FunctionTable

/-- The number of statements of the largest function. -/
def largestBody (t : FunctionTable) : Nat :=
  (t.definitions.map fun d => d.body.size).max?.getD 0

/-- The functions that are not being executed. -/
def idle (t : FunctionTable) (chain : List Label) : List Definition :=
  t.definitions.filter fun d => !chain.contains d.label

variable {t : FunctionTable} {label : Label} {d : Definition}

theorem size_le_largestBody (h : t.get? label = some d) : d.body.size ≤ t.largestBody :=
  List.le_max?_getD_of_mem (List.mem_map.mpr ⟨d, (mem_of_get? h).1, rfl⟩)

@[simp]
theorem idle_nil (t : FunctionTable) : (t.idle []).length = t.size := by
  simp [idle, size]

/-- Entering a function leaves fewer idle. -/
theorem length_idle_lt {chain : List Label} (h : t.get? label = some d) (hFresh : label ∉ chain) :
    (t.idle (chain ++ [label])).length < (t.idle chain).length := by
  have hIdle : t.idle (chain ++ [label]) =
      (t.idle chain).filter fun other => !decide (other.label = label) := by
    rw [idle, idle, List.filter_filter]
    congr 1
    funext other
    simp [Bool.and_comm]
  rw [hIdle, List.length_filter_lt_length_iff_exists]
  obtain ⟨hMem, rfl⟩ := mem_of_get? h
  exact ⟨d, by simpa [idle, hMem] using hFresh, by simp⟩

end FunctionTable

/-- How many statements a call can apply when no body has more than `size` of them and `idle`
functions are not being executed. -/
def callBound (size : Nat) : (idle : Nat) → Nat
  | 0 => 0
  | idle + 1 => size * (callBound size idle + 1)

theorem callBound_mono (size : Nat) {m n : Nat} (h : m ≤ n) :
    callBound size m ≤ callBound size n := by
  induction n generalizing m with
  | zero =>
    obtain rfl := Nat.le_zero.mp h
    exact Nat.le_refl _
  | succ n ih =>
    cases m with
    | zero => exact Nat.zero_le _
    | succ m =>
      have hInner := ih (Nat.le_of_succ_le_succ h)
      exact Nat.mul_le_mul_left size (Nat.succ_le_succ hInner)

namespace Event

theorem Nested.length_allSteps_le {table : FunctionTable} {limit : Nat} {chain : List Label}
    {body : Body} {events : List Event} (h : Nested table limit chain body events) :
    (allSteps events).length ≤ (ownSteps events).length *
      (callBound table.largestBody (table.idle chain).length + 1) := by
  induction h with
  | nil => simp
  | step _ _ ih =>
    simp only [allSteps_step, ownSteps_step, List.length_cons, Nat.succ_mul]
    omega
  | @call chain body s label d callee rest _ _ _ hLookup hFresh _ hSize _ _ ihCallee ihRest =>
    have hBody := Nat.le_trans hSize (FunctionTable.size_le_largestBody hLookup)
    have hCallee : (allSteps callee).length ≤
        callBound table.largestBody (table.idle chain).length := by
      calc (allSteps callee).length
        _ ≤ (ownSteps callee).length *
            (callBound table.largestBody (table.idle (chain ++ [label])).length + 1) := ihCallee
        _ ≤ table.largestBody *
            (callBound table.largestBody (table.idle (chain ++ [label])).length + 1) :=
          Nat.mul_le_mul_right _ hBody
        _ = callBound table.largestBody ((table.idle (chain ++ [label])).length + 1) := rfl
        _ ≤ callBound table.largestBody (table.idle chain).length :=
          callBound_mono _ (FunctionTable.length_idle_lt hLookup hFresh)
    simp only [allSteps_step, allSteps_call, ownSteps_step, ownSteps_call, List.length_cons,
      List.length_append, Nat.succ_mul]
    omega

end Event

namespace Font

/-- The number of statements of the largest program. -/
def largestProgram (font : Font) : Nat :=
  (font.programs.entries.map fun entry => entry.2.body.size).max?.getD 0

/-- More statements than any run can apply when calls refer to the functions of `table`. -/
def statementBound (font : Font) (table : FunctionTable) : Nat :=
  font.largestProgram * (callBound table.largestBody table.size + 1) + 1

variable {font : Font} {options : RunOptions} {tag : String} {env : Environment}

theorem size_le_largestProgram {program : Program}
    (h : font.programs.get? tag = some program) : program.body.size ≤ font.largestProgram := by
  obtain ⟨key, hMem⟩ := SortedMap.mem_of_get? h
  exact List.le_max?_getD_of_mem (List.mem_map.mpr ⟨(key, program), hMem, rfl⟩)

theorem executed_lt_statementBound (font : Font) (options : RunOptions) (tag : String)
    (env : Environment) :
    (font.run options tag env).executed < font.statementBound env.functions := by
  cases hProgram : font.programs.get? tag with
  | none =>
    rw [run_of_unknown hProgram]
    exact Nat.succ_pos _
  | some program =>
    have hRecords := font.run_records hProgram options env
    rw [hRecords.executed, statementBound, Nat.lt_succ_iff]
    have hOwn := Nat.le_trans hRecords.trace.own (size_le_largestProgram hProgram)
    refine Nat.le_trans hRecords.trace.nested.length_allSteps_le ?_
    rw [FunctionTable.idle_nil]
    exact Nat.mul_le_mul_right _ hOwn

theorem le_executed_of_exceededBudget {error : ExecutionError}
    (hError : (font.run options tag env).result = .error error)
    (hFault : error.fault = .exceededBudget) :
    options.maxStatements ≤ (font.run options tag env).executed := by
  cases hProgram : font.programs.get? tag with
  | none =>
    rw [run_of_unknown hProgram] at hError
    cases hError
    cases hFault
  | some program => exact (font.run_records hProgram options env).budget error hError hFault

end Font

/-- No run applies as many statements as the bodies bound, so a limit of at least that many
stops none. -/
theorem Session.execute_below_statementBound (session : Session) (font : Font) (tag : String)
    (env : Environment) :
    (session.execute font tag env).1.executed < font.statementBound env.functions ∧
      (font.statementBound env.functions ≤ session.options.maxStatements →
        ∀ error, (session.execute font tag env).1.result = .error error →
          error.fault ≠ .exceededBudget) := by
  have hBelow := font.executed_lt_statementBound session.options tag env
  refine ⟨hBelow, fun hLimit error hError hFault => ?_⟩
  have hUsed := Font.le_executed_of_exceededBudget hError hFault
  omega

/-- Two functions that call each other, one of them repeatedly and from an ELSE arm. -/
theorem Session.execute_below_statementBound_mutual_calls :
    ∃ (session : Session) (font : Font) (error : ExecutionError),
      session.options.branchPolicy = .bothArms ∧
      Font.load
        [("fpgm", "PUSHB[ ] 1 0 FDEF[ ] MPPEM[ ] IF[ ] ELSE[ ] PUSHB[ ] 2 1 LOOPCALL[ ] EIF[ ] " ++
            "ENDF[ ] FDEF[ ] PUSHB[ ] 0 CALL[ ] ENDF[ ]"), ("A", "PUSHB[ ] 0 CALL[ ]")]
        [] = .ok font ∧
      session.options.maxStatements = font.statementBound font.functions ∧
      (session.execute font "A" font.initialEnvironment).1.result = .error error ∧
      (session.execute font "A" font.initialEnvironment).1.executed = 9 ∧
      9 < font.statementBound font.functions ∧ error.fault ≠ .exceededBudget := by
  let session : Session := { options := { branchPolicy := .bothArms, maxStatements := 87 } }
  have hEvaluated : ((Font.load
      [("fpgm", "PUSHB[ ] 1 0 FDEF[ ] MPPEM[ ] IF[ ] ELSE[ ] PUSHB[ ] 2 1 LOOPCALL[ ] EIF[ ] " ++
          "ENDF[ ] FDEF[ ] PUSHB[ ] 0 CALL[ ] ENDF[ ]"), ("A", "PUSHB[ ] 0 CALL[ ]")]
      []).toOption.map fun font =>
        ((session.execute font "A" font.initialEnvironment).1.failed,
          (session.execute font "A" font.initialEnvironment).1.executed,
          font.statementBound font.functions)) = some (true, 9, 87) := by
    decide +kernel
  obtain ⟨font, hFont, hRest⟩ := Option.map_eq_some_iff.mp hEvaluated
  obtain ⟨hFailed, hNumbers⟩ := Prod.mk.inj hRest
  obtain ⟨hExecuted, hBound⟩ := Prod.mk.inj hNumbers
  obtain ⟨error, hError⟩ := (Run.failed_eq_true_iff _).mp hFailed
  have hBelow := session.execute_below_statementBound font "A" font.initialEnvironment
  exact ⟨session, font, error, rfl, eq_ok_of_toOption hFont, hBound.symm, hError, hExecuted,
    hExecuted ▸ hBelow.1, hBelow.2 (Nat.le_of_eq hBound) error hError⟩

/-- A statement over and over. -/
def Block.repeated (s : Statement) : Nat → Block
  | 0 => .nil
  | n + 1 => .step s (repeated s n)

/-- A statement that always succeeds uses up the statements of a run when it is repeated often
enough. -/
theorem Block.run_repeated_exceeds (options : RunOptions) (a : Activation)
    (call : (Fault → ExecutionError) → Label → RunAction Unit) (s : Statement)
    (hPerform : ∀ env, ∃ reached, s.perform options.axisCount env = .ok none reached) (n : Nat)
    (state : RunState) (hState : state.tally.executed ≤ options.maxStatements)
    (hMany : options.maxStatements < state.tally.executed + n) :
    ∃ error reached, (repeated s n).run options.branchPolicy (RunAction.visit options a call)
      state = .error error reached ∧ error.fault = .exceededBudget := by
  induction n generalizing state with
  | zero => omega
  | succ n ih =>
    simp only [repeated, Block.run]
    by_cases hLast : options.maxStatements ≤ state.tally.executed
    · have hDispatch : RunAction.dispatch options a s state = _ := if_pos hLast
      exact ⟨_, _, bind_of_error (bind_of_error hDispatch _) _, rfl⟩
    · obtain ⟨env, hEnv⟩ := hPerform state.env
      have hDispatch : RunAction.dispatch options a s state = .ok none _ :=
        RunAction.dispatch_eq_ok_iff.mpr ⟨Nat.not_le.mp hLast, env, hEnv, rfl⟩
      rw [bind_of_ok (RunAction.visit_of_none hDispatch)]
      exact ih _ (by simp only [Tally.observe, Tally.addStep]; omega)
        (by simp only [Tally.observe, Tally.addStep]; omega)

/-- A program that calls a function. -/
def callingBody : Body :=
  ⟨"A", .step ⟨.PUSHB, [.word 0], 0⟩ (.step ⟨.CALL, [], 1⟩ .nil)⟩

/-- An environment whose only function applies many statements. -/
def longFunction (n : Nat) : Environment :=
  { functions := ⟨[⟨0, ⟨"fpgm", .repeated ⟨.RTG, [], 0⟩ n⟩⟩]⟩ }

theorem callingBody_exceeds (bound : Nat) :
    ∃ error reached, RunAction.body { maxStatements := bound + 2 } "A" callingBody
      { env := longFunction (bound + 1) } = .error error reached ∧
        error.fault = .exceededBudget := by
  let options : RunOptions := { maxStatements := bound + 2 }
  let a : Activation := ⟨"A", [], "A"⟩
  obtain ⟨s, t, hPush, hCall, hTable, hExecuted⟩ : ∃ s t,
      RunAction.dispatch options a ⟨.PUSHB, [.word 0], 0⟩ { env := longFunction (bound + 1) } =
        .ok none s ∧
      RunAction.dispatch options a ⟨.CALL, [], 1⟩ s = .ok (some 0) t ∧
      t.env.functions = (longFunction (bound + 1)).functions ∧ t.tally.executed = 2 :=
    ⟨_, _, RunAction.dispatch_eq_ok_iff.mpr ⟨Nat.succ_pos _, _, rfl, rfl⟩,
      RunAction.dispatch_eq_ok_iff.mpr ⟨Nat.succ_lt_succ (Nat.succ_pos _), _, rfl, rfl⟩, rfl, rfl⟩
  have hLookup : t.env.functions.get? 0 =
      some ⟨0, ⟨"fpgm", .repeated ⟨.RTG, [], 0⟩ (bound + 1)⟩⟩ := hTable ▸ rfl
  obtain ⟨error, u, hRun, hFault⟩ := Block.run_repeated_exceeds options ⟨"A", [0], "fpgm"⟩
    (RunAction.call options "A" 31 [0]) ⟨.RTG, [], 0⟩ (fun _ => ⟨_, rfl⟩) (bound + 1)
    { t with tally := t.tally.openCall 0 }
    (by rw [Tally.openCall, hExecuted]; exact Nat.le_add_left 2 bound)
    (by rw [Tally.openCall, hExecuted, Nat.add_comm 2]; exact Nat.lt_succ_self _)
  have hEnter : RunAction.call options "A" (31 + 1) [] (a.error ⟨.CALL, [], 1⟩) 0 t =
      .error error { u with tally := u.tally.closeCall 0 t.tally.trace } := by
    rw [RunAction.call_eq_enter hLookup rfl]
    exact RunAction.entering_of_error hRun
  exact ⟨error, _, (bind_of_ok (RunAction.visit_of_none hPush) _).trans
    (bind_of_error ((RunAction.visit_of_some hCall).trans hEnter) _), hFault⟩

/-- No number of statements is enough for all environments, as their functions may differ from
those of the font. -/
theorem Session.exceeds_every_bound_with_other_functions :
    ∃ font, Font.load [("fpgm", "PUSHB[ ] 0 FDEF[ ] ENDF[ ]"), ("A", "PUSHB[ ] 0 CALL[ ]")] [] =
        .ok font ∧
      ¬∃ bound, ∀ (session : Session) (tag : String) (env : Environment),
        bound ≤ session.options.maxStatements →
          ∀ error, (session.execute font tag env).1.result = .error error →
            error.fault ≠ .exceededBudget := by
  have hEvaluated : ((Font.load
      [("fpgm", "PUSHB[ ] 0 FDEF[ ] ENDF[ ]"), ("A", "PUSHB[ ] 0 CALL[ ]")] []).toOption.bind
        fun font => (font.programs.get? "A").map Program.body) = some callingBody := by
    decide +kernel
  obtain ⟨font, hFont, hRest⟩ := Option.bind_eq_some_iff.mp hEvaluated
  obtain ⟨program, hProgram, hBody⟩ := Option.map_eq_some_iff.mp hRest
  refine ⟨font, eq_ok_of_toOption hFont, ?_⟩
  rintro ⟨bound, hBound⟩
  obtain ⟨error, reached, hRun, hFault⟩ := callingBody_exceeds bound
  rw [← hBody] at hRun
  refine hBound { options := { maxStatements := bound + 2 } } "A" (longFunction (bound + 1))
    (Nat.le_add_right bound 2) error ?_ hFault
  rw [execute, Font.run_of_error hProgram hRun]
  rfl

end Hinting
