import Hinting.Proofs.WalkerReuse

/-!
# How the call stack is kept

Whenever a statement is applied, the call stack names functions that are defined, each of them
once, and no more than are allowed. It is empty in the program itself, and in a function its
innermost entry is that function. A call or an arm that comes to its end leaves the stack as it
found it, and the counters have one call more for every statement whose call was entered.
-/

namespace Hinting

/-- A call stack that a run may have. -/
structure CallChain (table : FunctionTable) (limit : Nat) (chain : List Label) : Prop where
  distinct : chain.Nodup
  defined : ∀ label ∈ chain, ∃ d, table.get? label = some d
  bounded : chain.length ≤ limit

theorem CallChain.nil (table : FunctionTable) (limit : Nat) : CallChain table limit [] :=
  ⟨.nil, List.forall_mem_nil _, Nat.zero_le limit⟩

theorem CallChain.push {table : FunctionTable} {limit : Nat} {chain : List Label}
    (h : CallChain table limit chain) {label : Label} {d : Definition}
    (hLookup : table.get? label = some d) (hFresh : label ∉ chain) (hRoom : chain.length < limit) :
    CallChain table limit (chain ++ [label]) where
  distinct := List.nodup_append.mpr ⟨h.distinct, List.nodup_singleton label, by
    rintro other hOther _ (_ | ⟨_, ⟨⟩⟩) rfl
    exact hFresh hOther⟩
  defined := List.forall_mem_append.mpr ⟨h.defined, List.forall_mem_singleton.mpr ⟨d, hLookup⟩⟩
  bounded := by
    rw [List.length_append, List.length_singleton]
    exact hRoom

namespace Event

/-- The statements of an activation whose call was entered. -/
def entering : List Event → List Step
  | .step s :: .call _ _ :: rest => s :: entering rest
  | _ :: rest => entering rest
  | [] => []

/-- The statements of all activations whose call was entered. -/
def allEntering (trace : List Event) : List Step :=
  entering trace ++ (allActivations trace).flatMap fun a => entering a.2

namespace Nested

variable {table : FunctionTable} {limit : Nat} {chain : List Label} {body : Body}
  {events : List Event}

theorem callChain (h : Nested table limit chain body events)
    (hChain : CallChain table limit chain) :
    ∀ s ∈ allSteps events, CallChain table limit s.chain := by
  induction h with
  | nil => exact List.forall_mem_nil _
  | step hStep _ ih =>
    simp only [allSteps_step, List.forall_mem_cons]
    exact ⟨hStep.chain ▸ hChain, ih hChain⟩
  | call hStep _ _ hLookup hFresh hRoom _ _ _ ihCallee ihRest =>
    simp only [allSteps_step, allSteps_call, List.forall_mem_cons, List.forall_mem_append]
    exact ⟨hStep.chain ▸ hChain, ihCallee (hChain.push hLookup hFresh hRoom), ihRest hChain⟩

theorem own (h : Nested table limit chain body events) :
    ∀ s ∈ ownSteps events, s.RunsIn chain body := by
  induction h with
  | nil => exact List.forall_mem_nil _
  | step hStep _ ih => exact List.forall_mem_cons.mpr ⟨hStep, ih⟩
  | call hStep _ _ _ _ _ _ _ _ _ ihRest => exact List.forall_mem_cons.mpr ⟨hStep, ihRest⟩

theorem activation (h : Nested table limit chain body events) :
    ∀ a ∈ allActivations events, ∃ d outer, table.get? a.1 = some d ∧
      Nested table limit (outer ++ [a.1]) d.body a.2 := by
  induction h with
  | nil => exact List.forall_mem_nil _
  | step _ _ ih => exact ih
  | @call chain body s label d callee rest _ _ _ hLookup _ _ _ hCallee _ ihCallee ihRest =>
    simp only [allActivations_step, allActivations_call, List.forall_mem_cons,
      List.forall_mem_append]
    exact ⟨⟨d, chain, hLookup, hCallee⟩, ihCallee, ihRest⟩

/-- Every statement was applied in the activation itself or in one that it led to. -/
theorem mem_allSteps_iff (h : Nested table limit chain body events) (t : Step) :
    t ∈ allSteps events ↔
      t ∈ ownSteps events ∨ ∃ a ∈ allActivations events, t ∈ ownSteps a.2 := by
  induction h with
  | nil => simp
  | step _ _ ih => simp [ih, or_assoc]
  | call _ _ _ _ _ _ _ _ _ ihCallee ihRest =>
    simp only [allSteps_step, allSteps_call, allActivations_step, allActivations_call,
      ownSteps_step, ownSteps_call, List.mem_cons, List.mem_append, ihCallee, ihRest, or_and_right,
      exists_or, exists_eq_left, or_assoc, or_left_comm]

theorem entering_step (h : Nested table limit chain body events) (s : Step) :
    entering (.step s :: events) = entering events := by
  cases h <;> rfl

theorem length_allActivations (h : Nested table limit chain body events) :
    (allActivations events).length = (allEntering events).length := by
  induction h with
  | nil => rfl
  | step _ hRest ih =>
    rw [allEntering, hRest.entering_step]
    exact ih
  | call _ _ _ _ _ _ _ _ _ ihCallee ihRest =>
    rw [allEntering, List.length_append] at ihCallee ihRest ⊢
    simp only [allActivations_step, allActivations_call, entering, List.flatMap_cons,
      List.flatMap_append, List.length_cons, List.length_append]
    omega

theorem entering_isCall (h : Nested table limit chain body events) :
    ∀ s ∈ entering events, s.statement.isCall = true ∧ s ∈ ownSteps events := by
  induction h with
  | nil => exact List.forall_mem_nil _
  | step _ hRest ih =>
    rw [hRest.entering_step]
    exact fun t ht => (ih t ht).imp_right (.tail _)
  | call _ hCall _ _ _ _ _ _ _ _ ihRest =>
    refine List.forall_mem_cons.mpr ⟨⟨hCall, .head _⟩, fun t ht => ?_⟩
    exact (ihRest t ht).imp_right (.tail _)

end Nested

end Event

open Event

/-- How the call stack is kept in a run of a program. -/
structure Run.Disciplined (r : Run) (table : FunctionTable) (limit : Nat) (body : Body) :
    Prop where
  chains : ∀ s ∈ allSteps r.trace, CallChain table limit s.chain
  own : ∀ s ∈ ownSteps r.trace, s.RunsIn [] body
  callees : ∀ a ∈ allActivations r.trace, ∃ d, table.get? a.1 = some d ∧
    ∀ s ∈ ownSteps a.2, s.chain.getLast? = some a.1 ∧ s.RunsIn s.chain d.body
  complete : ∀ s, s ∈ allSteps r.trace ↔
    s ∈ ownSteps r.trace ∨ ∃ a ∈ allActivations r.trace, s ∈ ownSteps a.2
  entered : ∀ s ∈ allEntering r.trace, s.statement.isCall = true ∧ s ∈ allSteps r.trace

theorem Run.Records.disciplined {r : Run} {options : RunOptions} {table : FunctionTable}
    {body : Body} (h : r.Records options table body) :
    r.Disciplined table options.maxCallDepth body where
  chains := h.trace.nested.callChain (.nil table _)
  own := h.trace.nested.own
  callees a ha := by
    obtain ⟨d, outer, hLookup, hNested⟩ := h.trace.nested.activation a ha
    refine ⟨d, hLookup, fun s hs => ?_⟩
    have hRuns := hNested.own s hs
    rw [hRuns.chain]
    exact ⟨List.getLast?_concat, hRuns⟩
  complete := h.trace.nested.mem_allSteps_iff
  entered s hs := by
    rw [h.trace.nested.mem_allSteps_iff]
    rcases List.mem_append.mp hs with hOwn | hInner
    · exact (h.trace.nested.entering_isCall s hOwn).imp_right .inl
    · obtain ⟨a, ha, hInner⟩ := List.mem_flatMap.mp hInner
      obtain ⟨d, outer, _, hNested⟩ := h.trace.nested.activation a ha
      exact (hNested.entering_isCall s hInner).imp_right fun hOwn => .inr ⟨a, ha, hOwn⟩

theorem Font.length_entered_run (font : Font) (options : RunOptions) (tag : String)
    (env : Environment) : (entered (font.run options tag env).trace).length =
      (allEntering (font.run options tag env).trace).length := by
  cases hProgram : font.programs.get? tag with
  | none =>
    rw [Font.run_of_unknown hProgram]
    rfl
  | some program =>
    rw [entered, List.length_map]
    exact (Font.run_records hProgram options env).trace.nested.length_allActivations

namespace Walker

/-- A walker keeps its call stack in order in every program it is sent to, whatever it has been
through before. -/
theorem executes_afterRuns_disciplined {programs : List (String × String)} {cvt : List Int32}
    {font : Font} (hLoad : Font.load programs cvt = .ok font) (options : RunOptions)
    {history : List (String × Environment)} (hHistory : ∀ run ∈ history, run.2.functions.Linked)
    (tag : String) {env : Environment} (hEnv : env.functions.Linked) :
    ∃ used ended run,
      (∀ y, AfterRuns font { options } history y ↔ y = used) ∧
      (∀ r, used.Executes font tag env r ↔ r = ended) ∧
      ((Session.afterRuns { options } font history).execute font tag env).1 = run ∧
      ended.walker.steps = allSteps run.trace ∧
      (font.programs.get? tag = none → run.trace = []) ∧
      (∀ program, font.programs.get? tag = some program →
        run.Disciplined env.functions options.maxCallDepth program.body) ∧
      (∀ u, used.calls = some u ↔
        u.Represents (Session.afterRuns { options } font history).calls) ∧
      ((∃ w, ended.walker.calls = some w) ↔
        ∃ u, used.calls = some u ∧
          ∀ label, (u.count label).toNat + (entered run.trace).count label < 0x100000000) ∧
      (∀ u w, used.calls = some u → ended.walker.calls = some w →
        w.total = u.total + (allEntering run.trace).length) ∧
      (∀ body position? stop? w r, Walking.Walks body position? stop? w r →
        Walking.KeepsStack w r) ∧
      ∀ body position label w r, Walking.Calls body position label w r →
        Walking.KeepsStack w r := by
  obtain ⟨used, walker, hUsed, hReady, hEnds, _, hCalls, hSteps⟩ :=
    executes_afterRuns (Font.linked_of_load hLoad) options hHistory tag hEnv
  have hAscending {u : WordGraph} (hu : used.calls = some u) : u.counts.Ascending :=
    ((hReady.calls u).mp hu).ascending hReady.ascending
  refine ⟨used, _, font.run options tag env, hUsed, hEnds,
    congrArg Prod.fst (Session.execute_afterRuns options font history tag env), hSteps,
    fun hProgram => ?_, fun program hProgram => (Font.run_records hProgram options env).disciplined,
    hReady.calls, ?_, fun u w hu hw => ?_, fun _ _ _ _ _ hWalks => hWalks.keepsStack,
    fun _ _ _ _ _ hCalls => hCalls.keepsStack⟩
  · rw [Font.run_of_unknown hProgram]
  · rw [hCalls, Run.countInto]
    cases hu : used.calls with
    | none => simp
    | some u => simp [WordGraph.exists_recordAll_iff (hAscending hu)]
  · rw [hCalls, Run.countInto, hu] at hw
    rw [WordGraph.total_of_recordAll (hAscending hu) hw, font.length_entered_run]

/-- The first program fails inside of function 2. The second one calls that function in its THEN
arm, and by way of function 0 in its ELSE arm. -/
theorem executes_afterRuns_disciplined_both_arms :
    ∃ (options : RunOptions) (font : Font) (program : Program) (used : Walker) (ended : Ended)
      (run : Run) (u w : WordGraph), options.branchPolicy = .bothArms ∧
      Font.load
        [("fpgm", "PUSHB[ ] 2 0 FDEF[ ] PUSHB[ ] 2 CALL[ ] ENDF[ ] FDEF[ ] POP[ ] ENDF[ ]"),
          ("A", "PUSHB[ ] 7 1 IF[ ] PUSHB[ ] 2 CALL[ ] ELSE[ ] PUSHB[ ] 1 0 LOOPCALL[ ] EIF[ ]"),
          ("B", "PUSHB[ ] 2 CALL[ ]")] [] = .ok font ∧
      (font.run options "B" font.initialEnvironment).failed = true ∧
      font.programs.get? "A" = some program ∧
      AfterRuns font { options } [("B", font.initialEnvironment)] used ∧
      used.Executes font "A" font.initialEnvironment ended ∧
      ended.walker.steps = allSteps run.trace ∧
      (allSteps run.trace).map Step.chain =
        [[], [], [], [], [], [0], [0], [0, 2], [], [], [2], []] ∧
      run.Disciplined font.initialEnvironment.functions options.maxCallDepth program.body ∧
      used.calls = some u ∧ ended.walker.calls = some w ∧ u.total = 1 ∧ w.total = u.total + 3 := by
  let options : RunOptions := { branchPolicy := .bothArms }
  have hEvaluated : ((Font.load
      [("fpgm", "PUSHB[ ] 2 0 FDEF[ ] PUSHB[ ] 2 CALL[ ] ENDF[ ] FDEF[ ] POP[ ] ENDF[ ]"),
        ("A", "PUSHB[ ] 7 1 IF[ ] PUSHB[ ] 2 CALL[ ] ELSE[ ] PUSHB[ ] 1 0 LOOPCALL[ ] EIF[ ]"),
        ("B", "PUSHB[ ] 2 CALL[ ]")] []).toOption.bind fun font =>
        (font.programs.get? "A").map fun _ =>
          ((font.run options "B" font.initialEnvironment).failed,
            (allSteps (font.run options "A" font.initialEnvironment).trace).map Step.chain,
            entered (font.run options "A" font.initialEnvironment).trace,
            (allEntering (font.run options "A" font.initialEnvironment).trace).length,
            (Session.afterRuns { options } font [("B", font.initialEnvironment)]).calls)) =
      some (true, [[], [], [], [], [], [0], [0], [0, 2], [], [], [2], []], [0, 2, 2], 3,
        ⟨⟨[(2, 1)]⟩⟩) := by
    decide +kernel
  obtain ⟨font, hFont, hRest⟩ := Option.bind_eq_some_iff.mp hEvaluated
  obtain ⟨program, hProgram, hRuns⟩ := Option.map_eq_some_iff.mp hRest
  obtain ⟨hFailed, hOthers⟩ := Prod.mk.inj hRuns
  obtain ⟨hChains, hOthers⟩ := Prod.mk.inj hOthers
  obtain ⟨hEntered, hOthers⟩ := Prod.mk.inj hOthers
  obtain ⟨hLength, hGraph⟩ := Prod.mk.inj hOthers
  have hLoad := Action.eq_ok_of_toOption hFont
  have hLinked : font.initialEnvironment.functions.Linked := (Font.linked_of_load hLoad).functions
  have hHistory : ∀ run ∈ [("B", font.initialEnvironment)], run.2.functions.Linked :=
    List.forall_mem_singleton.mpr hLinked
  obtain ⟨used, ended, run, hUsed, hEnded, hRun, hSteps, _, hDisciplined, hCounters, hRoom, hTotal,
    _⟩ := executes_afterRuns_disciplined hLoad options hHistory "A" hLinked
  have hSelf : font.run options "A" font.initialEnvironment = run := hRun
  rw [hSelf] at hChains hEntered hLength
  let u : WordGraph := ⟨⟨[(2, 1)]⟩⟩
  have hu : used.calls = some u := (hCounters u).mpr (congrArg CallGraph.counts hGraph).symm
  obtain ⟨w, hw⟩ := hRoom.mpr ⟨u, hu, fun label => by
    have hCalls : (entered run.trace).count label ≤ 3 := hEntered ▸ List.count_le_length
    have hBefore : (u.count label).toNat ≤ 1 := by
      simp only [u, WordGraph.count, SortedMap.get?_cons]
      split
      · exact Nat.le_refl 1
      · exact Nat.zero_le 1
    omega⟩
  have hw' := hTotal u w hu hw
  rw [hLength] at hw'
  exact ⟨options, font, program, used, ended, run, u, w, rfl, hLoad, hFailed, hProgram,
    (hUsed used).mpr rfl, (hEnded ended).mpr rfl, hSteps, hChains, hDisciplined program hProgram,
    hu, hw, rfl, hw'⟩

end Walker

end Hinting
