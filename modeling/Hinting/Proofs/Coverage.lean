import Hinting.Proofs.DispatchOrder
import Hinting.Proofs.Lookup
import Hinting.Proofs.RunStep
import Mathlib.Algebra.GroupWithZero.Nat

/-!
# Which statements a run applies

The trace of a run is a tree: the statements of an activation of a body, and between
them the calls with the traces of their own activations. In every activation exactly
the statements are applied that the order of the body lists, and every call recorded in
the call graph is an activation in the tree. When both arms are taken, this gives the
number of statements applied from the sizes of the bodies.
-/

namespace Hinting

open Hinting.Action

namespace CallGraph

/-- The calls, each weighted by its label. -/
def total (g : CallGraph) (weight : Label → Nat) : Nat :=
  (g.toList.map fun (label, calls) => calls * weight label).sum

@[simp]
theorem total_add (g : CallGraph) (label : Label) (calls : Nat) (weight : Label → Nat) :
    (g.add label calls).total weight = g.total weight + calls * weight label := by
  obtain ⟨⟨entries⟩⟩ := g
  simp only [total, toList, add, SortedMap.update]
  induction entries with
  | nil => simp [SortedMap.updateEntries]
  | cons entry rest ih =>
    obtain ⟨first, count⟩ := entry
    rw [SortedMap.updateEntries]
    split
    · simp [Nat.add_comm]
    · rename_i hCompare
      obtain rfl := Std.compare_eq_iff_eq.mp hCompare
      simp [Nat.add_mul, Nat.add_right_comm]
    · rw [List.map_cons, List.sum_cons, ih, List.map_cons, List.sum_cons, Nat.add_assoc]

@[simp]
theorem total_merge (g h : CallGraph) (weight : Label → Nat) :
    (g.merge h).total weight = g.total weight + h.total weight := by
  obtain ⟨⟨entries⟩⟩ := h
  simp only [merge, total, toList]
  induction entries generalizing g with
  | nil => rfl
  | cons entry rest ih =>
    have hAdd := g.total_add entry.1 entry.2 weight
    simp only [total, toList] at hAdd
    rw [List.foldl_cons, ih, hAdd, List.map_cons, List.sum_cons, Nat.add_assoc]

theorem total_foldl_record (g : CallGraph) (labels : List Label) (weight : Label → Nat) :
    (labels.foldl record g).total weight = g.total weight + (labels.map weight).sum := by
  induction labels generalizing g with
  | nil => rfl
  | cons label rest ih =>
    rw [List.foldl_cons, ih, record, total_add, Nat.one_mul, List.map_cons, List.sum_cons,
      Nat.add_assoc]

theorem total_indicator {g : CallGraph} (h : g.counts.Ascending) (label : Label) :
    g.total (fun other => if other = label then 1 else 0) = g.count label := by
  obtain ⟨⟨entries⟩⟩ := g
  simp only [total, toList, count, SortedMap.Ascending] at h ⊢
  induction entries with
  | nil => rfl
  | cons entry rest ih =>
    obtain ⟨first, calls⟩ := entry
    have hAbsent := SortedMap.Ascending.get?_rest h
    rw [List.map_cons, List.sum_cons, ih (List.pairwise_cons.mp h).2, SortedMap.get?_cons]
    by_cases hLabel : first = label
    · subst hLabel
      simp [hAbsent]
    · simp [hLabel, Ne.symm hLabel]

end CallGraph

namespace Event

/-- The statements applied in an activation itself, in order. -/
def ownStatements (trace : List Event) : List Statement :=
  trace.filterMap fun
    | .step s => some s.statement
    | .call _ _ => none

mutual

def activations : Event → List (Label × List Event)
  | .step _ => []
  | .call label trace => (label, trace) :: allActivations trace

/-- The calls made in a trace, directly or through others, with their traces. -/
def allActivations : List Event → List (Label × List Event)
  | [] => []
  | event :: rest => event.activations ++ allActivations rest

end

/-- The functions entered in a trace, in the order in which they were entered. -/
def entered (trace : List Event) : List Label :=
  (allActivations trace).map Prod.fst

section Equations

variable (s : Step) (label : Label) (callee rest trace later : List Event)

@[simp]
theorem ownStatements_append :
    ownStatements (trace ++ later) = ownStatements trace ++ ownStatements later :=
  List.filterMap_append

@[simp]
theorem allSteps_nil : allSteps [] = [] :=
  rfl

@[simp]
theorem allSteps_step : allSteps (.step s :: rest) = s :: allSteps rest :=
  rfl

@[simp]
theorem allSteps_call :
    allSteps (.call label callee :: rest) = allSteps callee ++ allSteps rest :=
  rfl

@[simp]
theorem allSteps_append : allSteps (trace ++ later) = allSteps trace ++ allSteps later := by
  induction trace with
  | nil => rfl
  | cons event rest ih => rw [List.cons_append, allSteps, allSteps, ih, List.append_assoc]

@[simp]
theorem allActivations_nil : allActivations [] = [] :=
  rfl

@[simp]
theorem allActivations_step : allActivations (.step s :: rest) = allActivations rest :=
  rfl

@[simp]
theorem allActivations_call : allActivations (.call label callee :: rest) =
    (label, callee) :: (allActivations callee ++ allActivations rest) :=
  rfl

@[simp]
theorem allActivations_append :
    allActivations (trace ++ later) = allActivations trace ++ allActivations later := by
  induction trace with
  | nil => rfl
  | cons event rest ih =>
    rw [List.cons_append, allActivations, allActivations, ih, List.append_assoc]

@[simp]
theorem entered_nil : entered [] = [] :=
  rfl

@[simp]
theorem entered_step : entered (.step s :: rest) = entered rest :=
  rfl

@[simp]
theorem entered_call :
    entered (.call label callee :: rest) = label :: (entered callee ++ entered rest) := by
  simp [entered]

@[simp]
theorem entered_append : entered (trace ++ later) = entered trace ++ entered later := by
  simp [entered]

end Equations

mutual

theorem length_steps : ∀ event : Event, event.steps.length = (ownStatements [event]).length +
    (event.activations.map fun a => (ownStatements a.2).length).sum
  | .step s => rfl
  | .call label trace => by
    rw [steps, length_allSteps trace, activations, List.map_cons, List.sum_cons]
    exact (Nat.zero_add _).symm

theorem length_allSteps : ∀ trace : List Event, (allSteps trace).length =
    (ownStatements trace).length +
      ((allActivations trace).map fun a => (ownStatements a.2).length).sum
  | [] => rfl
  | event :: rest => by
    have hOwn : ownStatements (event :: rest) = ownStatements [event] ++ ownStatements rest :=
      ownStatements_append [event] rest
    rw [allSteps, List.length_append, length_steps event, length_allSteps rest, allActivations,
      List.map_append, List.sum_append, hOwn, List.length_append]
    omega

end

end Event

/-- How a part of a run takes the state `s` to the state `t`: what it adds to the trace of its
activation, and what follows for the counts. -/
structure RunState.Adds (s t : RunState) (events : List Event) : Prop where
  trace : t.tally.trace = events.reverse ++ s.tally.trace
  executed : t.tally.executed = s.tally.executed + (Event.allSteps events).length
  calls : t.tally.calls = (Event.entered events).foldl CallGraph.record s.tally.calls

namespace RunState.Adds

theorem refl (s : RunState) : s.Adds s [] :=
  ⟨rfl, rfl, rfl⟩

theorem trans {s t u : RunState} {events later : List Event} (h : s.Adds t events)
    (h' : t.Adds u later) : s.Adds u (events ++ later) where
  trace := by rw [h'.trace, h.trace, List.reverse_append, List.append_assoc]
  executed := by simp [h'.executed, h.executed, Nat.add_assoc]
  calls := by simp [h'.calls, h.calls]

/-- Applying a statement, also when it fails. -/
theorem step (state : RunState) (env : Environment) (step : Step) :
    state.Adds ⟨env, state.tally.addStep step⟩ [.step step] :=
  ⟨rfl, rfl, rfl⟩

/-- The run of a callee, which its caller sees as one event. -/
theorem entering {s t : RunState} {label : Label} {events : List Event}
    (h : RunState.Adds { s with tally := s.tally.openCall label } t events) :
    s.Adds { t with tally := t.tally.closeCall label s.tally.trace } [.call label events] where
  trace := t.tally.trace_closeCall h.trace label _
  executed := by simpa [Tally.openCall, Tally.closeCall] using h.executed
  calls := by simpa [Tally.openCall, Tally.closeCall] using h.calls

end RunState.Adds

/-- A part of a run that succeeds changes no function, and every call that it makes has applied
the statements of the function called. -/
structure RunState.Extends (policy : BranchPolicy) (s t : RunState) (events : List Event) :
    Prop extends s.Adds t events where
  functions : t.env.functions = s.env.functions
  activations : ∀ a ∈ Event.allActivations events, ∃ d, s.env.functions.get? a.1 = some d ∧
    Event.ownStatements a.2 = (d.body.block.dispatched policy 0).map Prod.fst

theorem RunState.Extends.refl (policy : BranchPolicy) (s : RunState) : s.Extends policy s [] :=
  ⟨.refl s, rfl, fun _ h => nomatch h⟩

theorem RunState.Extends.trans {policy : BranchPolicy} {s t u : RunState}
    {events later : List Event} (h : s.Extends policy t events) (h' : t.Extends policy u later) :
    s.Extends policy u (events ++ later) where
  toAdds := h.toAdds.trans h'.toAdds
  functions := h'.functions.trans h.functions
  activations := by
    rw [Event.allActivations_append, List.forall_mem_append]
    exact ⟨h.activations, h.functions ▸ h'.activations⟩

/-- A part of a run that applies the given statements in its own activation. -/
def Dispatches (policy : BranchPolicy) (x : RunAction Unit) (statements : List Statement) : Prop :=
  ∀ s t, x s = .ok () t → ∃ events, Event.ownStatements events = statements ∧
    s.Extends policy t events

namespace Dispatches

variable {policy : BranchPolicy}

theorem pure : Dispatches policy (pure ()) [] := by
  intro s t h
  cases h
  exact ⟨[], rfl, .refl policy s⟩

theorem bind {x y : RunAction Unit} {statements later : List Statement}
    (hx : Dispatches policy x statements) (hy : Dispatches policy y later) :
    Dispatches policy (x >>= fun _ => y) (statements ++ later) := by
  intro s t h
  obtain ⟨_, u, hu, ht⟩ := bind_eq_ok h
  obtain ⟨events, hOwn, hExtends⟩ := hx s u hu
  obtain ⟨events', hOwn', hExtends'⟩ := hy u t ht
  exact ⟨events ++ events', by simp [hOwn, hOwn'], hExtends.trans hExtends'⟩

theorem onCopy {x : RunAction Unit} {statements : List Statement}
    (hx : Dispatches policy x statements) : Dispatches policy (RunAction.onCopy x) statements := by
  intro s t h
  obtain ⟨last, hLast, rfl⟩ := RunAction.onCopy_eq_ok h
  obtain ⟨events, hOwn, hExtends⟩ := hx s last hLast
  exact ⟨events, hOwn, { hExtends with functions := rfl }⟩

theorem block {visit : Statement → RunAction Unit}
    (hVisit : ∀ s, Dispatches policy (visit s) [s]) (b : Block) (start : Nat) :
    Dispatches policy (b.run policy visit) ((b.dispatched policy start).map Prod.fst) := by
  induction b generalizing start with
  | nil => exact pure
  | step s rest ih => exact (hVisit s).bind (ih _)
  | cond s thenArm eif rest ihThen ihRest =>
    simp only [Block.dispatched, List.map_cons, List.map_append, List.cons_append]
    exact (hVisit s).bind ((ihThen _).bind ((hVisit eif).bind (ihRest _)))
  | condElse s thenArm mid elseArm eif rest ihThen ihElse ihRest =>
    have hTail := (ihThen (start + 1)).bind ((hVisit eif).bind
      (ihRest (start + thenArm.size + 1 + elseArm.size + 1 + 1)))
    by_cases hPolicy : policy = .bothArms
    · have hElse := ((hVisit mid).bind (ihElse (start + thenArm.size + 1 + 1))).onCopy
      simpa [Block.run, Block.dispatched, hPolicy] using (hVisit s).bind (hElse.bind hTail)
    · simpa [Block.run, Block.dispatched, hPolicy] using (hVisit s).bind hTail

theorem visit {options : RunOptions} (a : Activation)
    {call : (Fault → ExecutionError) → Label → RunAction Unit}
    (hCall : ∀ blame label, Dispatches policy (call blame label) []) (s : Statement) :
    Dispatches policy (RunAction.visit options a call s) [s] := by
  have hDispatch {state reached : RunState} {target : Option Label}
      (h : RunAction.dispatch options a s state = .ok target reached) :
      ∃ step : Step, step.statement = s ∧ state.Extends policy reached [.step step] := by
    obtain ⟨_, env, hPerform, rfl⟩ := RunAction.dispatch_eq_ok_iff.mp h
    exact ⟨⟨a.chain, a.tag, s, state.env, env⟩, rfl, ⟨rfl, rfl, rfl⟩,
      Statement.perform_functions hPerform, fun _ h => nomatch h⟩
  intro state reached h
  rcases RunAction.visit_eq_ok h with hLast | ⟨label, between, hFirst, hRest⟩
  · obtain ⟨step, rfl, hExtends⟩ := hDispatch hLast
    exact ⟨[.step step], rfl, hExtends⟩
  · obtain ⟨step, rfl, hExtends⟩ := hDispatch hFirst
    obtain ⟨events, hOwn, hExtends'⟩ := hCall _ label between reached hRest
    refine ⟨.step step :: events, ?_, hExtends.trans hExtends'⟩
    rw [← List.singleton_append, Event.ownStatements_append, hOwn, List.append_nil]
    rfl

theorem call (options : RunOptions) (program : String) (room : Nat) (chain : List Label)
    (blame : Fault → ExecutionError) (label : Label) :
    Dispatches options.branchPolicy (RunAction.call options program room chain blame label) [] := by
  -- the room falls with every call entered; a call is one event of the trace of its caller,
  -- and the trace in that event is the one of the function's body
  induction room generalizing chain blame label with
  | zero =>
    intro state reached h
    obtain ⟨d, inner, _, _, hRoom, _⟩ := RunAction.call_eq_ok h
    cases hRoom
  | succ room ih =>
    intro state reached h
    obtain ⟨d, inner, hLookup, _, hRoom, hEnter⟩ := RunAction.call_eq_ok h
    cases hRoom
    obtain ⟨last, hLast, rfl⟩ := RunAction.entering_eq_ok hEnter
    obtain ⟨events, hOwn, hExtends⟩ :=
      Dispatches.block (visit ⟨program, chain ++ [label], d.body.tag⟩ (ih (chain ++ [label])))
        d.body.block 0 _ last hLast
    refine ⟨[.call label events], rfl, hExtends.entering, hExtends.functions, ?_⟩
    simp only [Event.allActivations_call, Event.allActivations_nil, List.append_nil,
      List.forall_mem_cons]
    exact ⟨⟨d, hLookup, hOwn⟩, hExtends.activations⟩

theorem body (options : RunOptions) (program : String) (b : Body) :
    Dispatches options.branchPolicy (RunAction.body options program b)
      ((b.block.dispatched options.branchPolicy 0).map Prod.fst) :=
  Dispatches.block (visit _ (call options program _ _)) b.block 0

end Dispatches

/-- The statements of a body that a run has to apply. With both arms these are the
statements at all positions, in some order; with the THEN arm those at the positions
that no branch skips, in ascending order. -/
def Body.Covered (policy : BranchPolicy) (b : Body) (statements : List Statement) : Prop :=
  ∃ entries : List (Statement × Nat), statements = entries.map Prod.fst ∧
    match policy with
    | .bothArms => entries.Perm b.statements.zipIdx
    | .thenArm => entries = b.statements.zipIdx.filter fun entry =>
        b.branches.all fun branch => !branch.skips entry.2

theorem Body.covered_dispatched (policy : BranchPolicy) (b : Body) :
    b.Covered policy ((b.block.dispatched policy 0).map Prod.fst) := by
  refine ⟨b.block.dispatched policy 0, rfl, ?_⟩
  cases policy with
  | bothArms => exact b.block.dispatched_bothArms_perm 0
  | thenArm => exact (b.block.filter_statements_eq_dispatched 0 _ fun _ _ _ => rfl).symm

theorem Body.length_of_covered_bothArms {b : Body} {statements : List Statement}
    (h : b.Covered .bothArms statements) : statements.length = b.size := by
  obtain ⟨entries, rfl, hPerm⟩ := h
  rw [List.length_map, hPerm.length_eq, List.length_zipIdx]
  exact b.block.length_statements

def FunctionTable.bodySize (t : FunctionTable) (label : Label) : Nat :=
  ((t.get? label).map (·.body.size)).getD 0

/-- What a finished run has applied: the statements of its body and, for each call, the
statements of the function called. -/
structure Run.Covers (policy : BranchPolicy) (functions : FunctionTable) (body : Body) (run : Run) :
    Prop where
  own : body.Covered policy (Event.ownStatements run.trace)
  activations : ∀ a ∈ Event.allActivations run.trace, ∃ d, functions.get? a.1 = some d ∧
    d.body.Covered policy (Event.ownStatements a.2)
  executed : run.executed = (Event.allSteps run.trace).length
  size : policy = .bothArms →
    run.executed = body.size + ((Event.entered run.trace).map functions.bodySize).sum

theorem RunState.covers_finished {options : RunOptions} {tag : String} {body : Body}
    {env : Environment} {state : RunState}
    (h : RunAction.body options tag body { env } = .ok () state) :
    (state.finished tag).Covers options.branchPolicy env.functions body := by
  obtain ⟨events, hOwn, hExtends⟩ := Dispatches.body options tag body _ state h
  have hTrace : (state.finished tag).trace = events := by
    rw [RunState.finished, hExtends.trace]
    simp
  have hExecuted : state.tally.executed = (Event.allSteps events).length :=
    hExtends.executed.trans (Nat.zero_add _)
  have hBody : body.Covered options.branchPolicy (Event.ownStatements events) :=
    hOwn ▸ body.covered_dispatched options.branchPolicy
  have hActivations : ∀ a ∈ Event.allActivations events, ∃ d, env.functions.get? a.1 = some d ∧
      d.body.Covered options.branchPolicy (Event.ownStatements a.2) := by
    intro a ha
    obtain ⟨d, hLookup, hStatements⟩ := hExtends.activations a ha
    exact ⟨d, hLookup, hStatements ▸ d.body.covered_dispatched options.branchPolicy⟩
  constructor <;> rw [hTrace]
  · exact hBody
  · exact hActivations
  · exact hExecuted
  · intro hPolicy
    rw [hPolicy] at hBody hActivations
    have hSizes : ((Event.allActivations events).map fun a => (Event.ownStatements a.2).length) =
        (Event.entered events).map env.functions.bodySize := by
      rw [Event.entered, List.map_map]
      refine List.map_congr_left fun a ha => ?_
      obtain ⟨d, hLookup, hCovered⟩ := hActivations a ha
      rw [Body.length_of_covered_bothArms hCovered, Function.comp_apply, FunctionTable.bodySize,
        hLookup]
      rfl
    calc state.tally.executed = (Event.allSteps events).length := hExecuted
      _ = body.size + ((Event.entered events).map env.functions.bodySize).sum := by
        rw [Event.length_allSteps, Body.length_of_covered_bothArms hBody, hSizes]

end Hinting
