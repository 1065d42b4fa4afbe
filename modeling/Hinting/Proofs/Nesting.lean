import Hinting.Proofs.Coverage
import Hinting.Proofs.Limits
import Hinting.Proofs.StatementFaults

/-!
# How the activations of a run are nested

Whether a run comes to its end or fails, its trace is nested: the statements of an
activation come from the body that is running, and a call stands behind the statement that
asked for it and names a function that is defined and not being executed. The records of the
run agree with its trace.
-/

namespace Hinting

open Hinting.Action

theorem CallStack.cycle?_eq_none_iff (chain : List Label) (label : Label) :
    cycle? chain label = none ↔ label ∉ chain := by
  unfold cycle?
  split <;> simp_all

/-- The instructions that ask for a call. -/
def Statement.isCall (s : Statement) : Bool :=
  s.mnemonic = .CALL || s.mnemonic = .LOOPCALL

/-- A statement that is applied changes no function, and only a call asks for one. -/
theorem RunAction.dispatch_keeps {options : RunOptions} {a : Activation} {s : Statement}
    {state reached : RunState} {target : Option Label}
    (h : dispatch options a s state = .ok target reached) :
    reached.env.functions = state.env.functions ∧ ∀ label, target = some label →
      s.isCall = true ∧ state.env.stack.top? = some (.known label) := by
  obtain ⟨_, env, hPerform, rfl⟩ := dispatch_eq_ok_iff.mp h
  refine ⟨Statement.perform_functions hPerform, ?_⟩
  rintro label rfl
  obtain ⟨hMnemonic, hTop⟩ := Statement.perform_eq_ok_some hPerform
  exact ⟨by simpa [Statement.isCall] using hMnemonic, hTop⟩

/-- A statement that was applied in an activation of a body, through the functions of
`chain`. -/
structure Step.RunsIn (chain : List Label) (body : Body) (s : Step) : Prop where
  chain : s.chain = chain
  tag : s.tag = body.tag
  statement : s.statement ∈ body.statements

namespace Event

/-- The statements applied in an activation itself. -/
def ownSteps : List Event → List Step
  | [] => []
  | .step s :: rest => s :: ownSteps rest
  | .call _ _ :: rest => ownSteps rest

@[simp]
theorem ownSteps_nil : ownSteps [] = [] :=
  rfl

@[simp]
theorem ownSteps_step (s : Step) (rest : List Event) :
    ownSteps (.step s :: rest) = s :: ownSteps rest :=
  rfl

@[simp]
theorem ownSteps_call (label : Label) (callee rest : List Event) :
    ownSteps (.call label callee :: rest) = ownSteps rest :=
  rfl

@[simp]
theorem ownSteps_append (trace later : List Event) :
    ownSteps (trace ++ later) = ownSteps trace ++ ownSteps later := by
  induction trace with
  | nil => rfl
  | cons event rest ih => cases event <;> simp [ih]

/-- The trace of an activation of a body, through the functions of `chain`. -/
inductive Nested (table : FunctionTable) (limit : Nat) : List Label → Body → List Event → Prop
  | nil (chain : List Label) (body : Body) : Nested table limit chain body []
  | step {chain : List Label} {body : Body} {s : Step} {rest : List Event} :
      s.RunsIn chain body → Nested table limit chain body rest →
      Nested table limit chain body (.step s :: rest)
  | call {chain : List Label} {body : Body} {s : Step} {label : Label} {d : Definition}
      {callee rest : List Event} : s.RunsIn chain body → s.statement.isCall = true →
      s.before.stack.top? = some (.known label) → table.get? label = some d → label ∉ chain →
      chain.length < limit → (ownSteps callee).length ≤ d.body.size →
      Nested table limit (chain ++ [label]) d.body callee → Nested table limit chain body rest →
      Nested table limit chain body (.step s :: .call label callee :: rest)

namespace Nested

variable {table : FunctionTable} {limit : Nat} {chain : List Label} {body : Body}
  {events later : List Event}

theorem append (h : Nested table limit chain body events)
    (h' : Nested table limit chain body later) :
    Nested table limit chain body (events ++ later) := by
  induction h with
  | nil => exact h'
  | step hStep _ ih => exact .step hStep (ih h')
  | call hStep hCall hTop hLookup hFresh hRoom hSize hCallee _ _ ih =>
    exact .call hStep hCall hTop hLookup hFresh hRoom hSize hCallee (ih h')

end Nested

end Event

/-- What every outcome of a part of a run satisfies, a success as well as a failure: `E` holds
of the events it adds, and a run that is said to have used up its statements has. -/
structure Outcomes {α : Type} (budget : Nat) (table : FunctionTable) (E : List Event → Prop)
    (x : RunAction α) : Prop where
  ok : ∀ s a t, s.env.functions = table → x s = .ok a t →
    t.env.functions = table ∧ ∃ events, s.Adds t events ∧ E events
  error : ∀ s e t, s.env.functions = table → x s = .error e t →
    (e.fault = .exceededBudget → budget ≤ t.tally.executed) ∧ ∃ events, s.Adds t events ∧ E events

namespace Outcomes

variable {α β : Type} {budget : Nat} {table : FunctionTable} {E F G : List Event → Prop}

theorem pure (a : α) (h : E []) : Outcomes budget table E (pure a) where
  ok s b t hTable hOk := by
    cases hOk
    exact ⟨hTable, [], .refl s, h⟩
  error s e t _ hError := by cases hError

theorem bind {x : RunAction α} {f : α → RunAction β} (hx : Outcomes budget table E x)
    (hf : ∀ a, Outcomes budget table F (f a)) (hFirst : ∀ events, E events → G events)
    (hJoin : ∀ events later, E events → F later → G (events ++ later)) :
    Outcomes budget table G (x >>= f) where
  ok s b t hTable hOk := by
    obtain ⟨a, u, hu, ht⟩ := bind_eq_ok hOk
    obtain ⟨hTable', events, hAdds, hE⟩ := hx.ok s a u hTable hu
    obtain ⟨hTable'', later, hAdds', hF⟩ := (hf a).ok u b t hTable' ht
    exact ⟨hTable'', events ++ later, hAdds.trans hAdds', hJoin events later hE hF⟩
  error s e t hTable hError := by
    rcases bind_eq_error hError with hLast | ⟨a, u, hu, ht⟩
    · obtain ⟨hBudget, events, hAdds, hE⟩ := hx.error s e t hTable hLast
      exact ⟨hBudget, events, hAdds, hFirst events hE⟩
    · obtain ⟨hTable', events, hAdds, hE⟩ := hx.ok s a u hTable hu
      obtain ⟨hBudget, later, hAdds', hF⟩ := (hf a).error u e t hTable' ht
      exact ⟨hBudget, events ++ later, hAdds.trans hAdds', hJoin events later hE hF⟩

theorem onCopy {x : RunAction Unit} (hx : Outcomes budget table E x) :
    Outcomes budget table E (RunAction.onCopy x) where
  ok s a t hTable hOk := by
    obtain ⟨last, hLast, rfl⟩ := RunAction.onCopy_eq_ok hOk
    obtain ⟨_, events, hAdds, hE⟩ := hx.ok s () last hTable hLast
    exact ⟨hTable, events, ⟨hAdds.trace, hAdds.executed, hAdds.calls⟩, hE⟩
  error s e t hTable hError := by
    obtain ⟨last, hLast, rfl⟩ := RunAction.onCopy_eq_error hError
    obtain ⟨hBudget, events, hAdds, hE⟩ := hx.error s e last hTable hLast
    exact ⟨hBudget, events, ⟨hAdds.trace, hAdds.executed, hAdds.calls⟩, hE⟩

theorem entering {x : RunAction Unit} (hx : Outcomes budget table E x) (label : Label)
    (h : ∀ events, E events → F [.call label events]) :
    Outcomes budget table F (RunAction.entering label x) where
  ok s a t hTable hOk := by
    obtain ⟨last, hLast, rfl⟩ := RunAction.entering_eq_ok hOk
    obtain ⟨hTable', events, hAdds, hE⟩ :=
      hx.ok { s with tally := s.tally.openCall label } () last hTable hLast
    exact ⟨hTable', [.call label events], hAdds.entering, h events hE⟩
  error s e t hTable hError := by
    obtain ⟨last, hLast, rfl⟩ := RunAction.entering_eq_error hError
    obtain ⟨hBudget, events, hAdds, hE⟩ :=
      hx.error { s with tally := s.tally.openCall label } e last hTable hLast
    exact ⟨hBudget, [.call label events], hAdds.entering, h events hE⟩

end Outcomes

/-- The events of a part of an activation that applies at most `size` statements of its own. -/
structure Event.Part (table : FunctionTable) (limit : Nat) (chain : List Label) (body : Body)
    (size : Nat) (events : List Event) : Prop where
  nested : Nested table limit chain body events
  own : (ownSteps events).length ≤ size

/-- The events of a call: none when it is refused, and else the run of the callee. -/
inductive Event.Entry (table : FunctionTable) (limit : Nat) (chain : List Label) (label : Label) :
    List Event → Prop
  | refused : Entry table limit chain label []
  | entered {d : Definition} {callee : List Event} : table.get? label = some d → label ∉ chain →
      chain.length < limit → Part table limit (chain ++ [label]) d.body d.body.size callee →
      Entry table limit chain label [.call label callee]

open Event

namespace Outcomes

variable {budget limit : Nat} {table : FunctionTable} {chain : List Label} {body : Body}

theorem seq {x y : RunAction Unit} {m n size : Nat}
    (hx : Outcomes budget table (Part table limit chain body m) x)
    (hy : Outcomes budget table (Part table limit chain body n) y) (hSize : m + n ≤ size) :
    Outcomes budget table (Part table limit chain body size) (x >>= fun _ => y) := by
  refine hx.bind (fun _ => hy) (fun events h => ⟨h.nested, by have hOwn := h.own; omega⟩)
    fun events later h h' => ⟨h.nested.append h'.nested, ?_⟩
  have hOwn := h.own
  have hOwn' := h'.own
  rw [ownSteps_append, List.length_append]
  omega

theorem block {visit : Statement → RunAction Unit}
    (hVisit : ∀ s ∈ body.statements,
      Outcomes budget table (Part table limit chain body 1) (visit s))
    (policy : BranchPolicy) (b : Block) (hMem : ∀ s ∈ b.statements, s ∈ body.statements) :
    Outcomes budget table (Part table limit chain body b.size) (b.run policy visit) := by
  induction b with
  | nil => exact pure () ⟨.nil chain body, Nat.le_refl 0⟩
  | step s rest ih =>
    simp only [Block.statements, List.forall_mem_cons] at hMem
    exact (hVisit s hMem.1).seq (ih hMem.2) (by simp only [Block.size]; omega)
  | cond s thenArm eif rest ihThen ihRest =>
    simp only [Block.statements, List.cons_append, List.forall_mem_cons,
      List.forall_mem_append] at hMem
    obtain ⟨hIf, hThen, hEif, hRest⟩ := hMem
    refine (hVisit s hIf).seq ((ihThen hThen).seq ((hVisit eif hEif).seq (ihRest hRest)
      (Nat.le_refl _)) (Nat.le_refl _)) ?_
    simp only [Block.size]
    omega
  | condElse s thenArm mid elseArm eif rest ihThen ihElse ihRest =>
    simp only [Block.statements, List.cons_append, List.append_assoc, List.forall_mem_cons,
      List.forall_mem_append] at hMem
    obtain ⟨hIf, hThen, hMid, hElse, hEif, hRest⟩ := hMem
    have hTail := (ihThen hThen).seq ((hVisit eif hEif).seq (ihRest hRest) (Nat.le_refl _))
      (Nat.le_refl _)
    by_cases hPolicy : policy = .bothArms
    · simp only [Block.run, if_pos hPolicy]
      have hOther := ((hVisit mid hMid).seq (ihElse hElse) (Nat.le_refl _)).onCopy
      refine (hVisit s hIf).seq (hOther.seq hTail (Nat.le_refl _)) ?_
      simp only [Block.size]
      omega
    · simp only [Block.run, if_neg hPolicy]
      refine (hVisit s hIf).seq hTail ?_
      simp only [Block.size]
      omega

variable {options : RunOptions}

/-- The statement that asks for a call, and what comes of it. -/
theorem part_of_call {step : Step} {label : Label} {events : List Event}
    (hStep : step.RunsIn chain body) (hCall : step.statement.isCall = true)
    (hTop : step.before.stack.top? = some (.known label))
    (h : Entry table limit chain label events) :
    Part table limit chain body 1 ([.step step] ++ events) := by
  cases h with
  | refused => exact ⟨.step hStep (.nil chain body), Nat.le_refl 1⟩
  | entered hLookup hFresh hRoom hCallee =>
    exact ⟨.call hStep hCall hTop hLookup hFresh hRoom hCallee.own hCallee.nested (.nil chain body),
      Nat.le_refl 1⟩

theorem visit {program : String} {call : (Fault → ExecutionError) → Label → RunAction Unit}
    (hCall : ∀ blame label, (∀ fault, (blame fault).fault = fault) →
      Outcomes options.maxStatements table (Entry table limit chain label) (call blame label))
    {s : Statement} (hMem : s ∈ body.statements) :
    Outcomes options.maxStatements table (Part table limit chain body 1)
      (RunAction.visit options ⟨program, chain, body.tag⟩ call s) := by
  have hDispatch {state reached : RunState} {target : Option Label}
      (h : RunAction.dispatch options ⟨program, chain, body.tag⟩ s state = .ok target reached)
      (hTable : state.env.functions = table) :
      reached.env.functions = table ∧ ∃ step : Step, step.RunsIn chain body ∧
        state.Adds reached [.step step] ∧ ∀ label, target = some label →
          step.statement.isCall = true ∧ step.before.stack.top? = some (.known label) := by
    obtain ⟨hKept, hCalls⟩ := RunAction.dispatch_keeps h
    obtain ⟨_, env, _, rfl⟩ := RunAction.dispatch_eq_ok_iff.mp h
    exact ⟨hKept.trans hTable, ⟨chain, body.tag, s, state.env, env⟩, ⟨rfl, rfl, hMem⟩,
      ⟨rfl, rfl, rfl⟩, hCalls⟩
  constructor
  · intro state _ reached hTable hOk
    rcases RunAction.visit_eq_ok hOk with hLast | ⟨label, between, hFirst, hRest⟩
    · obtain ⟨hTable', step, hStep, hAdds, _⟩ := hDispatch hLast hTable
      exact ⟨hTable', [.step step], hAdds, .step hStep (.nil chain body), Nat.le_refl 1⟩
    · obtain ⟨hTable', step, hStep, hAdds, hTarget⟩ := hDispatch hFirst hTable
      obtain ⟨hAsks, hTop⟩ := hTarget label rfl
      obtain ⟨hTable'', events, hAdds', hEntry⟩ :=
        (hCall _ label fun _ => rfl).ok between () reached hTable' hRest
      exact ⟨hTable'', _, hAdds.trans hAdds', part_of_call hStep hAsks hTop hEntry⟩
  · intro state e reached hTable hError
    rcases RunAction.visit_eq_error hError with hLast | ⟨label, between, hFirst, hRest⟩
    · rcases RunAction.dispatch_eq_error hLast with
        ⟨hBudget, _, rfl⟩ | ⟨fault, env, hPerform, rfl, rfl⟩
      · exact ⟨fun _ => hBudget, [], .refl reached, .nil chain body, Nat.zero_le 1⟩
      · refine ⟨fun hFault => ?_, [.step _], .step state env _,
          .step ⟨rfl, rfl, hMem⟩ (.nil chain body), Nat.le_refl 1⟩
        have hMeets := s.perform_meets options.axisCount _ _ _ hPerform
        rw [show fault = .exceededBudget from hFault] at hMeets
        cases hMeets
    · obtain ⟨hTable', step, hStep, hAdds, hTarget⟩ := hDispatch hFirst hTable
      obtain ⟨hAsks, hTop⟩ := hTarget label rfl
      obtain ⟨hBudget, events, hAdds', hEntry⟩ :=
        (hCall _ label fun _ => rfl).error between e reached hTable' hRest
      exact ⟨hBudget, _, hAdds.trans hAdds', part_of_call hStep hAsks hTop hEntry⟩

theorem of_eq {x y : RunAction Unit} {E : List Event → Prop} (hy : Outcomes budget table E y)
    (h : ∀ s : RunState, s.env.functions = table → x s = y s) : Outcomes budget table E x where
  ok s a t hTable hOk := hy.ok s a t hTable (h s hTable ▸ hOk)
  error s e t hTable hError := hy.error s e t hTable (h s hTable ▸ hError)

theorem throw {E : List Event → Prop} (h : E []) {e : ExecutionError}
    (hFault : e.fault ≠ .exceededBudget) : Outcomes budget table E (throw e : RunAction Unit) where
  ok s a t _ hOk := by cases hOk
  error s e' t _ hError := by
    cases hError
    exact ⟨fun hBudget => absurd hBudget hFault, [], .refl s, h⟩

/-- A call is refused, or it enters a function that is not being executed. -/
theorem call_of_body (program : String) (room : Nat) (blame : Fault → ExecutionError)
    (label : Label) (hRoom : chain.length + room = limit)
    (hBlame : ∀ fault, (blame fault).fault = fault)
    (hBody : ∀ (inner : Nat) (d : Definition), room = inner + 1 →
      Outcomes options.maxStatements table
        (Part table limit (chain ++ [label]) d.body d.body.size)
        (d.body.block.run options.branchPolicy
          (RunAction.visit options ⟨program, chain ++ [label], d.body.tag⟩
            (RunAction.call options program inner (chain ++ [label]))))) :
    Outcomes options.maxStatements table (Entry table limit chain label)
      (RunAction.call options program room chain blame label) := by
  have hRefused (fault : Fault) (hFault : fault ≠ .exceededBudget) :
      Outcomes options.maxStatements table (Entry table limit chain label)
        (MonadExcept.throw (blame fault) : RunAction Unit) :=
    throw .refused (by rwa [hBlame])
  cases hLookup : table.get? label with
  | none =>
    exact (hRefused (.undefinedFunction label) (by simp)).of_eq
      fun s hTable => RunAction.call_of_undefined (hTable ▸ hLookup)
  | some d =>
    cases hCycle : CallStack.cycle? chain label with
    | some cycle =>
      exact (hRefused (.recursiveCall cycle) (by simp)).of_eq
        fun s hTable => RunAction.call_of_cycle (hTable ▸ hLookup) hCycle
    | none =>
      cases room with
      | zero =>
        exact (hRefused (.callStackOverflow (chain ++ [label])) (by simp)).of_eq
          fun s hTable => RunAction.call_of_full (hTable ▸ hLookup) hCycle
      | succ inner =>
        have hFresh := (CallStack.cycle?_eq_none_iff chain label).mp hCycle
        refine ((hBody inner d rfl).entering label fun events hEvents =>
          .entered hLookup hFresh (by omega) hEvents).of_eq
          fun s hTable => RunAction.call_eq_enter (hTable ▸ hLookup) hCycle

theorem call (program : String) (room : Nat) (chain : List Label) (blame : Fault → ExecutionError)
    (label : Label) (hRoom : chain.length + room = limit)
    (hBlame : ∀ fault, (blame fault).fault = fault) :
    Outcomes options.maxStatements table (Entry table limit chain label)
      (RunAction.call options program room chain blame label) := by
  -- the room falls with every call entered, and the chain grows by as much
  induction room generalizing chain blame label with
  | zero => exact call_of_body program 0 blame label hRoom hBlame fun inner d h => by cases h
  | succ room ih =>
    refine call_of_body program (room + 1) blame label hRoom hBlame fun inner d h => ?_
    cases h
    have hInner : (chain ++ [label]).length + room = limit := by
      rw [List.length_append, List.length_singleton]
      omega
    refine block (fun s hMem => ?_) options.branchPolicy d.body.block fun _ hMem => hMem
    exact visit (fun blame' label' => ih (chain ++ [label]) blame' label' hInner) hMem

theorem ofBody (program : String) (b : Body) :
    Outcomes options.maxStatements table (Part table options.maxCallDepth [] b b.size)
      (RunAction.body options program b) :=
  block (fun _ hMem => visit (fun blame label => call program _ [] blame label (Nat.zero_add _))
    hMem) _ _ fun _ hMem => hMem

end Outcomes

/-- The records of a run agree with its trace, which is that of an activation of `body`. -/
structure Run.Records (r : Run) (options : RunOptions) (table : FunctionTable) (body : Body) :
    Prop where
  trace : Part table options.maxCallDepth [] body body.size r.trace
  executed : r.executed = (allSteps r.trace).length
  calls : r.calls = (entered r.trace).foldl CallGraph.record .empty
  budget : ∀ error, r.result = .error error → error.fault = .exceededBudget →
    options.maxStatements ≤ r.executed

theorem RunState.Adds.finished {options : RunOptions} {table : FunctionTable} {body : Body}
    {env : Environment} {t : RunState} {events : List Event}
    (h : ({ env } : RunState).Adds t events)
    (hPart : Part table options.maxCallDepth [] body body.size events) (tag : String) :
    (t.finished tag).Records options table body := by
  have hTrace : (t.finished tag).trace = events := by
    rw [RunState.finished, h.trace]
    simp
  constructor
  · rwa [hTrace]
  · rw [hTrace]
    exact h.executed.trans (Nat.zero_add _)
  · rw [hTrace]
    exact h.calls
  · intro error hError
    cases hError

theorem Font.run_records {font : Font} {tag : String} {program : Program}
    (hProgram : font.programs.get? tag = some program) (options : RunOptions)
    (env : Environment) :
    (font.run options tag env).Records options env.functions program.body := by
  have hBody : Outcomes options.maxStatements env.functions _ (RunAction.body options tag _) :=
    .ofBody tag program.body
  cases hRun : RunAction.body options tag program.body { env } with
  | ok _ t =>
    obtain ⟨_, events, hAdds, hPart⟩ := hBody.ok { env } () t rfl hRun
    rw [Font.run_of_ok hProgram hRun]
    exact hAdds.finished hPart tag
  | error e t =>
    obtain ⟨hBudget, events, hAdds, hPart⟩ := hBody.error { env } e t rfl hRun
    rw [Font.run_of_error hProgram hRun]
    refine { hAdds.finished hPart tag with budget := fun error hError hFault => ?_ }
    cases hError
    exact hBudget hFault

end Hinting
