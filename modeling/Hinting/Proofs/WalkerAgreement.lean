import Hinting.Proofs.CountedCalls
import Hinting.Proofs.FlowShape
import Hinting.Proofs.Loading
import Hinting.Proofs.StatementFaults
import Hinting.Proofs.Walker

/-!
# Walkers and runs

A walker that starts on a program does exactly what a run of the program does, whatever it has
been through before: it comes to an end with the same result and the same environment, and
adds the calls and the peak of the run to its own. The statements it applies are those of the
trace, each with the call stack that the trace names.
-/

namespace Hinting

open Hinting.Action

namespace Block

/-- A block that stands in a body from position `start` on and is left towards `exit?`. -/
structure Placed (b : Block) (body : Body) (start : Nat) (exit? : Option Nat) : Prop where
  statements : ∀ s i, (s, i) ∈ b.statements.zipIdx start → body.statements[i]? = some s
  flow : ∀ targets i, (targets, i) ∈ b.flow start exit? → body.successors i = targets
  branches : ∀ branch ∈ b.branches start, body.branch? branch.ifPosition = some branch

theorem placed_whole (body : Body) : body.block.Placed body 0 none where
  statements _ _ h := List.mk_mem_zipIdx_iff_getElem?.mp h
  flow _ _ h := Body.successors_of_mem_flow h
  branches branch h := (body.branch?_eq_some_iff _ branch).mpr ⟨h, rfl⟩

theorem exists_entry (b : Block) (start exit : Nat) :
    ∃ position, b.entry? start (some exit) = some position := by
  cases b <;> exact ⟨_, rfl⟩

namespace Placed

variable {body : Body} {start : Nat} {exit? : Option Nat} {s mid eif : Statement}
  {thenArm elseArm rest : Block}

theorem part {b c : Block} {start' : Nat} {exit' : Option Nat} (h : b.Placed body start exit?)
    (hStatements : ∀ e ∈ c.statements.zipIdx start', e ∈ b.statements.zipIdx start)
    (hFlow : ∀ e ∈ c.flow start' exit', e ∈ b.flow start exit?)
    (hBranches : ∀ branch ∈ c.branches start', branch ∈ b.branches start) :
    c.Placed body start' exit' where
  statements s i hMem := h.statements s i (hStatements _ hMem)
  flow targets i hMem := h.flow targets i (hFlow _ hMem)
  branches branch hMem := h.branches branch (hBranches branch hMem)

theorem of_step (h : (step s rest).Placed body start exit?) :
    body.statements[start]? = some s ∧
      body.successors start = (rest.entry? (start + 1) exit?).toList ∧
      rest.Placed body (start + 1) exit? := by
  refine ⟨h.statements s start (.head _), h.flow _ start (by simp [mem_flow_step]), ?_⟩
  exact h.part (fun e hMem => .tail _ hMem) (fun e hMem => (mem_flow_step s rest).mpr (.inr hMem))
    fun branch hMem => hMem

theorem of_cond (h : (cond s thenArm eif rest).Placed body start exit?) :
    (body.statements[start]? = some s ∧
      body.statements[start + thenArm.size + 1]? = some eif) ∧
    body.branch? start = some ⟨start, none, start + thenArm.size + 1⟩ ∧
    (body.successors start = (thenArm.entry? (start + 1)
        (some (start + thenArm.size + 1))).toList ++ [start + thenArm.size + 1] ∧
      body.successors (start + thenArm.size + 1) =
        (rest.entry? (start + thenArm.size + 2) exit?).toList) ∧
    thenArm.Placed body (start + 1) (some (start + thenArm.size + 1)) ∧
    rest.Placed body (start + thenArm.size + 2) exit? := by
  refine ⟨⟨h.statements _ _ ?_, h.statements _ _ ?_⟩, h.branches ⟨start, none, _⟩ ?_,
    ⟨h.flow _ _ ?_, h.flow _ _ ?_⟩, h.part ?_ ?_ ?_, h.part ?_ ?_ ?_⟩
  all_goals simp +contextual [zipIdx_statements_cond, mem_flow_cond, mem_branches_cond]

theorem of_condElse (h : (condElse s thenArm mid elseArm eif rest).Placed body start exit?) :
    (body.statements[start]? = some s ∧
      body.statements[start + thenArm.size + 1]? = some mid ∧
      body.statements[start + thenArm.size + 1 + elseArm.size + 1]? = some eif) ∧
    body.branch? start = some ⟨start, some (start + thenArm.size + 1),
      start + thenArm.size + 1 + elseArm.size + 1⟩ ∧
    (body.successors start = (thenArm.entry? (start + 1)
        (some (start + thenArm.size + 1 + elseArm.size + 1))).toList ++
          [start + thenArm.size + 1] ∧
      body.successors (start + thenArm.size + 1) = (elseArm.entry? (start + thenArm.size + 2)
        (some (start + thenArm.size + 1 + elseArm.size + 1))).toList ∧
      body.successors (start + thenArm.size + 1 + elseArm.size + 1) =
        (rest.entry? (start + thenArm.size + 1 + elseArm.size + 2) exit?).toList) ∧
    thenArm.Placed body (start + 1) (some (start + thenArm.size + 1 + elseArm.size + 1)) ∧
    elseArm.Placed body (start + thenArm.size + 2)
      (some (start + thenArm.size + 1 + elseArm.size + 1)) ∧
    rest.Placed body (start + thenArm.size + 1 + elseArm.size + 2) exit? := by
  refine ⟨⟨h.statements _ _ ?_, h.statements _ _ ?_, h.statements _ _ ?_⟩,
    h.branches ⟨start, some _, _⟩ ?_,
    ⟨h.flow _ _ ?_, h.flow _ _ ?_, h.flow _ _ ?_⟩, h.part ?_ ?_ ?_, h.part ?_ ?_ ?_,
    h.part ?_ ?_ ?_⟩
  all_goals
    simp +contextual [zipIdx_statements_condElse, mem_flow_condElse, mem_branches_condElse]

end Placed

end Block

/-- How a run visits the statements of a body that `chain` leads to. -/
def Walker.visit (x : Walker) (chain : List Label) (room : Nat) (body : Body) :
    Statement → RunAction Unit :=
  RunAction.visit x.options ⟨x.program, chain, body.tag⟩
    (RunAction.call x.options x.program room chain)

namespace Walking

/-- Goes on after a success. -/
def andThen {α β : Type} (x : Outcome α → Prop) (f : α → Walking → Outcome β → Prop)
    (r : Outcome β) : Prop :=
  (∃ e w, x (.error e w) ∧ r = .error e w) ∨ ∃ a w, x (.ok a w) ∧ f a w r

section AndThen

variable {α β γ : Type}

@[simp]
theorem andThen_ok (a : α) (w : Walking) (f : α → Walking → Outcome β → Prop) :
    andThen (Eq (.ok a w)) f = f a w := by
  funext r
  refine propext ⟨?_, fun h => .inr ⟨a, w, rfl, h⟩⟩
  rintro (⟨e, u, hEnds, rfl⟩ | ⟨b, u, hEnds, h⟩)
  · cases hEnds
  · cases hEnds
    exact h

@[simp]
theorem andThen_error (e : ExecutionError) (w : Walking) (f : α → Walking → Outcome β → Prop) :
    andThen (Eq (.error e w)) f = Eq (.error e w) := by
  funext r
  refine propext ⟨?_, fun h => .inl ⟨e, w, rfl, h.symm⟩⟩
  rintro (⟨e', u, hEnds, rfl⟩ | ⟨b, u, hEnds, h⟩)
  · cases hEnds
    rfl
  · cases hEnds

@[simp]
theorem andThen_assoc (x : Outcome α → Prop) (f : α → Walking → Outcome β → Prop)
    (g : β → Walking → Outcome γ → Prop) :
    andThen (andThen x f) g = andThen x fun a w => andThen (f a w) g := by
  funext r
  refine propext ⟨?_, ?_⟩
  · rintro (⟨e, w, ⟨e', w', hx, h⟩ | ⟨a, w', hx, hf⟩, rfl⟩ |
      ⟨b, w, ⟨e', w', hx, h⟩ | ⟨a, w', hx, hf⟩, hg⟩)
    · cases h
      exact .inl ⟨e, w, hx, rfl⟩
    · exact .inr ⟨a, w', hx, .inl ⟨e, w, hf, rfl⟩⟩
    · cases h
    · exact .inr ⟨a, w', hx, .inr ⟨b, w, hf, hg⟩⟩
  · rintro (⟨e, w, hx, rfl⟩ | ⟨a, w, hx, ⟨e, u, hf, rfl⟩ | ⟨b, u, hf, hg⟩⟩)
    · exact .inl ⟨e, w, .inl ⟨e, w, hx, rfl⟩, rfl⟩
    · exact .inl ⟨e, u, .inr ⟨a, w, hx, hf⟩, rfl⟩
    · exact .inr ⟨b, u, .inr ⟨a, w, hx, hf⟩, hg⟩

end AndThen

/-- The outcomes of a walk on a copy of the environment `env`. -/
def onCopy (env : Environment) (x : Outcome Unit → Prop) (r : Outcome Unit) : Prop :=
  (∃ e w, x (.error e w) ∧ r = .error e { w with env }) ∨
    ∃ w, x (.ok () w) ∧ r = .ok () { w with env }

@[simp]
theorem onCopy_ok (env : Environment) (w : Walking) :
    onCopy env (Eq (.ok () w)) = Eq (.ok () { w with env }) := by
  funext r
  refine propext ⟨?_, fun h => .inr ⟨w, rfl, h.symm⟩⟩
  rintro (⟨e, u, hEnds, rfl⟩ | ⟨u, hEnds, rfl⟩)
  · cases hEnds
  · cases hEnds
    rfl

@[simp]
theorem onCopy_error (env : Environment) (e : ExecutionError) (w : Walking) :
    onCopy env (Eq (.error e w)) = Eq (.error e { w with env }) := by
  funext r
  refine propext ⟨?_, fun h => .inl ⟨e, w, rfl, h.symm⟩⟩
  rintro (⟨e', u, hEnds, rfl⟩ | ⟨u, hEnds, rfl⟩)
  · cases hEnds
    rfl
  · cases hEnds

section Equations

variable {body : Body} {position : Nat} {stop? : Option Nat} {s : Statement} {w : Walking}

theorem walks_of_statement (hStatement : body.statements[position]? = some s)
    (hStop : stop? ≠ some position) :
    Walks body (some position) stop? w =
      andThen (Eq (dispatch body position s w)) fun target w =>
        andThen (Follows body position s target w) fun next? w => Walks body next? stop? w := by
  funext r
  refine propext ⟨fun h => ?_, ?_⟩
  · cases h with
    | past hNone => cases hStatement.symm.trans hNone
    | stopped => exact absurd rfl hStop
    | refused hSame _ hDispatch =>
      cases hStatement.symm.trans hSame
      exact .inl ⟨_, _, hDispatch, rfl⟩
    | failed hSame _ hDispatch hFollows =>
      cases hStatement.symm.trans hSame
      exact .inr ⟨_, _, hDispatch, .inl ⟨_, _, hFollows, rfl⟩⟩
    | next hSame _ hDispatch hFollows hRest =>
      cases hStatement.symm.trans hSame
      exact .inr ⟨_, _, hDispatch, .inr ⟨_, _, hFollows, hRest⟩⟩
  · rintro (⟨e, t, hDispatch, rfl⟩ |
      ⟨target, t, hDispatch, ⟨e, u, hFollows, rfl⟩ | ⟨next?, u, hFollows, hRest⟩⟩)
    · exact .refused hStatement hStop hDispatch
    · exact .failed hStatement hStop hDispatch hFollows
    · exact .next hStatement hStop hDispatch hFollows hRest

theorem walks_of_left (body : Body) (stop? : Option Nat) (w : Walking) :
    Walks body none stop? w = Eq (.ok () w) := by
  funext r
  refine propext ⟨fun h => ?_, ?_⟩
  · cases h
    rfl
  · rintro rfl
    exact .left

theorem walks_of_past (hPast : body.statements[position]? = none) :
    Walks body (some position) stop? w = Eq (.ok () w) := by
  funext r
  refine propext ⟨fun h => ?_, ?_⟩
  · cases h with
    | past => rfl
    | stopped => rfl
    | refused hStatement => cases hPast.symm.trans hStatement
    | failed hStatement => cases hPast.symm.trans hStatement
    | next hStatement => cases hPast.symm.trans hStatement
  · rintro rfl
    exact .past hPast

theorem walks_of_stop (body : Body) (position : Nat) (w : Walking) :
    Walks body (some position) (some position) w = Eq (.ok () w) := by
  funext r
  refine propext ⟨fun h => ?_, ?_⟩
  · cases h with
    | past => rfl
    | stopped => rfl
    | refused _ hStop => exact absurd rfl hStop
    | failed _ hStop => exact absurd rfl hStop
    | next _ hStop => exact absurd rfl hStop
  · rintro rfl
    exact .stopped

theorem walks_start (body : Body) (w : Walking) :
    Walks body (some 0) none w = Walks body (body.block.entry? 0 none) none w := by
  cases hBlock : body.block with
  | nil =>
    have hPast : body.statements[0]? = none := by
      rw [Body.statements, hBlock]
      rfl
    rw [walks_of_past hPast]
    exact (walks_of_left body none w).symm
  | step s rest => rfl
  | cond s thenArm eif rest => rfl
  | condElse s thenArm mid elseArm eif rest => rfl

theorem follows_call (label : Label) :
    Follows body position s (some label) w =
      andThen (Calls body position label w) fun _ w =>
        Eq (.ok (body.successors position).head? w) := by
  funext r
  refine propext ⟨fun h => ?_, ?_⟩
  · cases h with
    | failed hCalls => exact .inl ⟨_, _, hCalls, rfl⟩
    | called hCalls => exact .inr ⟨(), _, hCalls, rfl⟩
  · rintro (⟨e, t, hCalls, rfl⟩ | ⟨_, t, hCalls, rfl⟩)
    · exact .failed hCalls
    · exact .called hCalls

theorem follows_simple (hKind : s.kind ≠ .ifStart) :
    Follows body position s none w = Eq (.ok (body.successors position).head? w) := by
  funext r
  refine propext ⟨fun h => ?_, ?_⟩
  · cases h with
    | refused hIf => exact absurd hIf hKind
    | branched hIf => exact absurd hIf hKind
    | passed => rfl
  · rintro rfl
    exact .passed hKind

theorem follows_ifStart (hKind : s.kind = .ifStart) :
    Follows body position s none w =
      andThen (Branches body position w) fun next? w =>
        Eq (.ok (next?.or (body.successors position).head?) w) := by
  funext r
  refine propext ⟨fun h => ?_, ?_⟩
  · cases h with
    | refused _ hBranches => exact .inl ⟨_, _, hBranches, rfl⟩
    | branched _ hBranches => exact .inr ⟨_, _, hBranches, rfl⟩
    | passed hOther => exact absurd hKind hOther
  · rintro (⟨e, t, hBranches, rfl⟩ | ⟨next?, t, hBranches, rfl⟩)
    · exact .refused hKind hBranches
    · exact .branched hKind hBranches

variable {branch : Branch} {thenPosition elsePosition : Nat}

theorem branches_of_thenArm (hBranch : body.branch? position = some branch)
    (hTargets : body.successors position = [thenPosition, elsePosition])
    (hSkip : ¬w.takesElse branch elsePosition) :
    Branches body position w = Eq (.ok (some thenPosition) w) := by
  funext r
  refine propext ⟨fun h => ?_, ?_⟩
  · cases h with
    | failed hSame hTargets' hTake =>
      cases hBranch.symm.trans hSame
      cases hTargets.symm.trans hTargets'
      exact absurd hTake hSkip
    | bothArms hSame hTargets' hTake =>
      cases hBranch.symm.trans hSame
      cases hTargets.symm.trans hTargets'
      exact absurd hTake hSkip
    | thenArm _ hTargets' =>
      cases hTargets.symm.trans hTargets'
      rfl
    | straight hOther => exact absurd hTargets (hOther _ _ _ hBranch)
  · rintro rfl
    exact .thenArm hBranch hTargets hSkip

theorem branches_of_bothArms (hBranch : body.branch? position = some branch)
    (hTargets : body.successors position = [thenPosition, elsePosition])
    (hTake : w.takesElse branch elsePosition) :
    Branches body position w =
      andThen (onCopy w.env (Walks body (some elsePosition) (some branch.eifPosition) w))
        fun _ w => Eq (.ok (some thenPosition) w) := by
  funext r
  refine propext ⟨fun h => ?_, ?_⟩
  · cases h with
    | failed hSame hTargets' _ hWalks =>
      cases hBranch.symm.trans hSame
      cases hTargets.symm.trans hTargets'
      exact .inl ⟨_, _, .inl ⟨_, _, hWalks, rfl⟩, rfl⟩
    | bothArms hSame hTargets' _ hWalks =>
      cases hBranch.symm.trans hSame
      cases hTargets.symm.trans hTargets'
      exact .inr ⟨(), _, .inr ⟨_, hWalks, rfl⟩, rfl⟩
    | thenArm hSame hTargets' hSkip =>
      cases hBranch.symm.trans hSame
      cases hTargets.symm.trans hTargets'
      exact absurd hTake hSkip
    | straight hOther => exact absurd hTargets (hOther _ _ _ hBranch)
  · rintro (⟨e, t, ⟨_, u, hWalks, ⟨⟩⟩ | ⟨u, hWalks, ⟨⟩⟩, rfl⟩ |
      ⟨_, t, ⟨_, u, hWalks, ⟨⟩⟩ | ⟨u, hWalks, ⟨⟩⟩, rfl⟩)
    · exact .failed hBranch hTargets hTake hWalks
    · exact .bothArms hBranch hTargets hTake hWalks

theorem calls_eq_andThen (label : Label) :
    Calls body position label w =
      andThen (Eq (enter body position label w)) fun callee w =>
        andThen (Walks callee (some 0) none w) fun _ w => Eq (.ok () w.leave) := by
  funext r
  refine propext ⟨fun h => ?_, ?_⟩
  · cases h with
    | refused hEnter => exact .inl ⟨_, _, hEnter, rfl⟩
    | failed hEnter hWalks => exact .inr ⟨_, _, hEnter, .inl ⟨_, _, hWalks, rfl⟩⟩
    | returned hEnter hWalks => exact .inr ⟨_, _, hEnter, .inr ⟨(), _, hWalks, rfl⟩⟩
  · rintro (⟨e, t, hEnter, rfl⟩ | ⟨callee, t, hEnter, ⟨e, u, hWalks, rfl⟩ | ⟨_, u, hWalks, rfl⟩⟩)
    · exact .refused hEnter
    · exact .failed hEnter hWalks
    · exact .returned hEnter hWalks

end Equations

/-- A walker that was `x` and had counted the calls of `g` when the run started has kept what the
run has recorded. `before` are the steps made when the current activation started. -/
structure Agrees (x : Walker) (g : CallGraph) (before : List Step) (w : Walking) (s : RunState) :
    Prop where
  options : w.walker.options = x.options
  program : w.walker.program = x.program
  capacity : w.walker.stack.depth + w.walker.stack.room = x.options.maxCallDepth
  called : w.walker.called = s.tally.called
  calls : w.walker.calls.Hold (g.merge s.tally.calls)
  peak : w.walker.peak = max x.peak s.tally.peak
  steps : w.walker.steps = before ++ Event.allSteps s.tally.trace.reverse
  env : w.env = s.env

/-- The walker is where the run is: in the activation that `chain` leads to. -/
structure Tracks (x : Walker) (g : CallGraph) (table : FunctionTable) (before : List Step)
    (chain : List Label) (room : Nat) (w : Walking) (s : RunState) :
    Prop extends Agrees x g before w s where
  stack : w.walker.stack = ⟨chain, room⟩
  started : w.walker.started = s.tally.executed
  functions : s.env.functions = table

/-- A part of a run and a part of a walk fail with the same error, or the walk goes on with
`next` where the part of the run has come to its end. -/
inductive Agreement {α β : Type} (P Q : Walking → RunState → Prop)
    (next : α → Walking → Outcome β → Prop) :
    EStateM.Result ExecutionError RunState α → (Outcome β → Prop) → Prop
  | ok {a : α} {w : Walking} {s : RunState} : P w s → Agreement P Q next (.ok a s) (next a w)
  | error {e : ExecutionError} {w : Walking} {s : RunState} : Q w s →
      Agreement P Q next (.error e s) (Eq (.error e w))

namespace Agreement

variable {α β γ : Type} {P P' Q : Walking → RunState → Prop}
  {next : α → Walking → Outcome γ → Prop} {out : Outcome γ → Prop}

theorem bind {x : RunAction α} {s : RunState} (h : Agreement P Q next (x s) out)
    {f : α → RunAction β} {next' : β → Walking → Outcome γ → Prop}
    (hf : ∀ a w t, P w t → Agreement P' Q next' (f a t) (next a w)) :
    Agreement P' Q next' ((x >>= f) s) out := by
  rw [bind_apply]
  cases hx : x s with
  | ok a t =>
    rw [hx] at h
    cases h with
    | ok hP => exact hf a _ t hP
  | error e t =>
    rw [hx] at h
    cases h with
    | error hQ => exact .error hQ

theorem eq_ok {a : α} {s : RunState} {out : Outcome α → Prop}
    (h : Agreement P Q (fun a w => Eq (.ok a w)) (.ok a s) out) :
    ∃ w, out = Eq (.ok a w) ∧ P w s := by
  cases h with
  | ok hP => exact ⟨_, rfl, hP⟩

theorem eq_error {e : ExecutionError} {s : RunState}
    (h : Agreement P Q next (.error e s) out) : ∃ w, out = Eq (.error e w) ∧ Q w s := by
  cases h with
  | error hQ => exact ⟨_, rfl, hQ⟩

theorem andThen {r : EStateM.Result ExecutionError RunState α} {out : Outcome α → Prop}
    (h : Agreement P Q (fun a w => Eq (.ok a w)) r out)
    (next : α → Walking → Outcome γ → Prop) :
    Agreement P Q next r (Walking.andThen out next) := by
  cases h with
  | ok hP =>
    rw [andThen_ok]
    exact .ok hP
  | error hQ =>
    rw [andThen_error]
    exact .error hQ

end Agreement

section Simulation

variable {x : Walker} {g : CallGraph} {table : FunctionTable} {before : List Step}
  {chain : List Label} {room : Nat} {body : Body} {position : Nat} {st : Statement} {w : Walking}
  {s : RunState}

theorem Tracks.error_eq (h : Tracks x g table before chain room w s)
    (hStatement : body.statements[position]? = some st) (fault : Fault) :
    w.walker.error body position fault =
      Activation.error ⟨x.program, chain, body.tag⟩ st fault := by
  rw [Walker.error, h.program, h.stack, Body.statementId, Body.idIn, hStatement]
  rfl

theorem agreement_dispatch (h : Tracks x g table before chain room w s)
    (hStatement : body.statements[position]? = some st) :
    Agreement (Tracks x g table before chain room) (Agrees x g before)
      (fun target w => Eq (.ok target w))
      (RunAction.dispatch x.options ⟨x.program, chain, body.tag⟩ st s)
      (Eq (dispatch body position st w)) := by
  have hError (fault : Fault) : w.walker.begin.error body position fault = _ :=
    h.error_eq hStatement fault
  have hSteps (env : Environment) : (w.walker.begin.addStep body st w.env env).steps =
      before ++ Event.allSteps (s.tally.addStep
        ⟨chain, body.tag, st, s.env, env⟩).trace.reverse := by
    simp [Walker.addStep, Walker.begin, Tally.addStep, h.steps, h.stack, h.env]
  have hBudget : w.walker.begin.options.maxStatements < w.walker.begin.started ↔
      x.options.maxStatements ≤ s.tally.executed := by
    simp only [Walker.begin, h.options, h.started]
    exact Nat.lt_succ_iff
  unfold dispatch RunAction.dispatch
  dsimp only
  by_cases hUsed : x.options.maxStatements ≤ s.tally.executed
  · rw [if_pos hUsed, if_pos (hBudget.mpr hUsed), hError]
    exact .error { h.toAgrees with }
  · rw [if_neg hUsed, if_neg (hBudget.not.mpr hUsed), show w.walker.begin.options = x.options from
      h.options, h.env]
    cases hPerform : st.perform x.options.axisCount s.env with
    | error fault env =>
      dsimp only
      rw [hError]
      exact .error { h.toAgrees with steps := h.env ▸ hSteps env, env := rfl }
    | ok target env =>
      dsimp only
      have hPeak : max w.walker.peak env.stack.peak =
          max x.peak (max s.tally.peak env.stack.peak) := by
        rw [h.peak, Nat.max_assoc]
      exact .ok
        { h with
          steps := h.env ▸ hSteps env
          env := rfl
          peak := hPeak
          started := congrArg (· + 1) h.started
          functions := (Statement.perform_functions hPerform).trans h.functions }

/-- What the call of a function comes to, for a walker where the run is. -/
def CallsAgree (x : Walker) (g : CallGraph) (table : FunctionTable) (chain : List Label)
    (room : Nat) : Prop :=
  ∀ (before : List Step) (body : Body) (position : Nat) (st : Statement) (label : Label)
    (w : Walking) (s : RunState), Tracks x g table before chain room w s →
    body.statements[position]? = some st →
    Agreement (Tracks x g table before chain room) (Agrees x g before) (fun a w => Eq (.ok a w))
      (RunAction.call x.options x.program room chain
        (Activation.error ⟨x.program, chain, body.tag⟩ st) label s)
      (Calls body position label w)

/-- Where a walk goes on after the statement at a position. -/
def proceed (body : Body) (position : Nat) (st : Statement) (stop? : Option Nat) (w : Walking) :
    (Outcome Unit → Prop) :=
  andThen (Follows body position st none w) fun next? w => Walks body next? stop? w

theorem proceed_simple (hKind : st.kind ≠ .ifStart) (stop? : Option Nat) (w : Walking) :
    proceed body position st stop? w = Walks body (body.successors position).head? stop? w := by
  simp [proceed, follows_simple hKind]

theorem proceed_thenArm (hKind : st.kind = .ifStart) {branch : Branch}
    {thenPosition elsePosition : Nat} (hBranch : body.branch? position = some branch)
    (hTargets : body.successors position = [thenPosition, elsePosition])
    (hSkip : ¬w.takesElse branch elsePosition) (stop? : Option Nat) :
    proceed body position st stop? w = Walks body (some thenPosition) stop? w := by
  simp [proceed, follows_ifStart hKind, branches_of_thenArm hBranch hTargets hSkip]

theorem proceed_bothArms (hKind : st.kind = .ifStart) {branch : Branch}
    {thenPosition elsePosition : Nat} (hBranch : body.branch? position = some branch)
    (hTargets : body.successors position = [thenPosition, elsePosition])
    (hTake : w.takesElse branch elsePosition) (stop? : Option Nat) :
    proceed body position st stop? w =
      andThen (onCopy w.env (Walks body (some elsePosition) (some branch.eifPosition) w))
        fun _ w => Walks body (some thenPosition) stop? w := by
  simp [proceed, follows_ifStart hKind, branches_of_bothArms hBranch hTargets hTake]

theorem agreement_visit (hCalls : CallsAgree x g table chain room)
    (h : Tracks x g table before chain room w s)
    (hStatement : body.statements[position]? = some st) {stop? : Option Nat}
    (hStop : stop? ≠ some position) :
    Agreement (Tracks x g table before chain room) (Agrees x g before)
      (fun _ w => proceed body position st stop? w)
      (x.visit chain room body st s)
      (Walks body (some position) stop? w) := by
  rw [walks_of_statement hStatement hStop, Walker.visit]
  have hDispatch := agreement_dispatch h hStatement
  cases hRun : RunAction.dispatch x.options ⟨x.program, chain, body.tag⟩ st s with
  | error e t =>
    rw [hRun] at hDispatch
    obtain ⟨u, hu, hAgrees⟩ := hDispatch.eq_error
    rw [RunAction.visit, bind_of_error hRun, hu, andThen_error]
    exact .error hAgrees
  | ok target t =>
    rw [hRun] at hDispatch
    obtain ⟨u, hu, hTracks⟩ := hDispatch.eq_ok
    rw [hu, andThen_ok]
    cases target with
    | none =>
      rw [RunAction.visit_of_none hRun]
      exact .ok hTracks
    | some label =>
      have hKind : st.kind ≠ .ifStart := by
        obtain ⟨_, env, hPerform, _⟩ := RunAction.dispatch_eq_ok_iff.mp hRun
        rcases (Statement.perform_eq_ok_some hPerform).1 with hCall | hCall
        · rw [Statement.kind, hCall]
          decide
        · rw [Statement.kind, hCall]
          decide
      rw [RunAction.visit_of_some hRun, follows_call, andThen_assoc]
      simp only [andThen_ok, proceed_simple hKind]
      exact (hCalls before body position st label u t hTracks hStatement).andThen _

theorem agreement_onCopy (h : Tracks x g table before chain room w s) {y : RunAction Unit}
    {out : Outcome Unit → Prop}
    (hOut : Agreement (Tracks x g table before chain room) (Agrees x g before)
      (fun a w => Eq (.ok a w)) (y s) out) :
    Agreement (Tracks x g table before chain room) (Agrees x g before)
      (fun a w => Eq (.ok a w)) (RunAction.onCopy y s) (onCopy w.env out) := by
  unfold RunAction.onCopy
  cases hy : y s with
  | ok a t =>
    rw [hy] at hOut
    obtain ⟨u, rfl, hTracks⟩ := hOut.eq_ok
    rw [onCopy_ok]
    exact .ok { hTracks with env := h.env, functions := h.functions }
  | error e t =>
    rw [hy] at hOut
    obtain ⟨u, rfl, hAgrees⟩ := hOut.eq_error
    rw [onCopy_error]
    exact .error { hAgrees with env := h.env }

/-- A statement that control just passes through. -/
theorem agreement_simple (hCalls : CallsAgree x g table chain room)
    (h : Tracks x g table before chain room w s)
    (hStatement : body.statements[position]? = some st) (hKind : st.kind ≠ .ifStart)
    {next? stop? : Option Nat} (hNext : body.successors position = next?.toList)
    (hStop : stop? ≠ some position) :
    Agreement (Tracks x g table before chain room) (Agrees x g before)
      (fun _ w => Walks body next? stop? w)
      (x.visit chain room body st s)
      (Walks body (some position) stop? w) := by
  have hVisit := agreement_visit hCalls h hStatement hStop
  simp only [proceed_simple hKind, hNext, Option.head?_toList] at hVisit
  exact hVisit

/-- Nothing in front of `bound` stops a walk. -/
def StopsFrom (bound : Nat) (stop? : Option Nat) : Prop :=
  ∀ stop, stop? = some stop → bound ≤ stop

theorem StopsFrom.none (bound : Nat) : StopsFrom bound none := by
  intro stop h
  cases h

theorem StopsFrom.ne {bound n : Nat} {stop? : Option Nat} (h : StopsFrom bound stop?)
    (hLess : n < bound) : stop? ≠ some n := fun hEq => Nat.not_le.mpr hLess (h n hEq)

theorem StopsFrom.mono {bound n : Nat} {stop? : Option Nat} (h : StopsFrom bound stop?)
    (hLess : n ≤ bound) : StopsFrom n stop? :=
  fun stop hEq => Nat.le_trans hLess (h stop hEq)

theorem agreement_block (hCalls : CallsAgree x g table chain room) {b : Block}
    (hRegular : b.Regular) {start : Nat} {exit? stop? : Option Nat}
    (hPlaced : b.Placed body start exit?) (hStop : StopsFrom (start + b.size) stop?)
    (h : Tracks x g table before chain room w s) :
    Agreement (Tracks x g table before chain room) (Agrees x g before)
      (fun _ w => Walks body exit? stop? w)
      (b.run x.options.branchPolicy (x.visit chain room body) s)
      (Walks body (b.entry? start exit?) stop? w) := by
  induction b generalizing start exit? stop? w s with
  | nil => exact .ok h
  | step st rest ih =>
    rw [Block.size] at hStop
    obtain ⟨hStatement, hTargets, hRest⟩ := hPlaced.of_step
    have hKind : st.kind ≠ .ifStart := fun hIf => by
      have hSimple := hRegular.1
      rw [hIf] at hSimple
      cases hSimple
    refine (agreement_simple hCalls h hStatement hKind hTargets (hStop.ne (by omega))).bind
      fun _ u t hTracks => ?_
    exact ih hRegular.2 hRest (hStop.mono (by omega)) hTracks
  | cond st thenArm eif rest ihThen ihRest =>
    rw [Block.size] at hStop
    obtain ⟨hIf, hThenRegular, hEif, hRestRegular⟩ := hRegular
    obtain ⟨⟨hStatement, hEifStatement⟩, hBranch, ⟨hTargets, hEifTargets⟩, hThen, hRest⟩ :=
      hPlaced.of_cond
    obtain ⟨thenPosition, hEntry⟩ :=
      thenArm.exists_entry (start + 1) (start + thenArm.size + 1)
    rw [hEntry] at hTargets
    refine (agreement_visit hCalls h hStatement (hStop.ne (by omega))).bind
      fun _ u t hTracks => ?_
    have hSkip : ¬u.takesElse ⟨start, none, start + thenArm.size + 1⟩
        (start + thenArm.size + 1) := fun hTake => hTake.2 rfl
    rw [proceed_thenArm hIf hBranch hTargets hSkip, ← hEntry]
    refine (ihThen hThenRegular hThen (hStop.mono (by omega)) hTracks).bind
      fun _ u t hTracks => ?_
    refine (agreement_simple hCalls hTracks hEifStatement (by simp [hEif]) hEifTargets
      (hStop.ne (by omega))).bind fun _ u t hTracks => ?_
    exact ihRest hRestRegular hRest (hStop.mono (by omega)) hTracks
  | condElse st thenArm mid elseArm eif rest ihThen ihElse ihRest =>
    rw [Block.size] at hStop
    obtain ⟨hIf, hThenRegular, hMid, hElseRegular, hEif, hRestRegular⟩ := hRegular
    obtain ⟨⟨hStatement, hMidStatement, hEifStatement⟩, hBranch,
      ⟨hTargets, hMidTargets, hEifTargets⟩, hThen, hElse, hRest⟩ := hPlaced.of_condElse
    obtain ⟨thenPosition, hEntry⟩ :=
      thenArm.exists_entry (start + 1) (start + thenArm.size + 1 + elseArm.size + 1)
    rw [hEntry] at hTargets
    have hTail {u : Walking} {t : RunState} (hTracks : Tracks x g table before chain room u t) :
        Agreement (Tracks x g table before chain room) (Agrees x g before)
          (fun _ w => Walks body exit? stop? w)
          ((do
            thenArm.run x.options.branchPolicy (x.visit chain room body)
            x.visit chain room body eif
            rest.run x.options.branchPolicy (x.visit chain room body) : RunAction Unit) t)
          (Walks body (some thenPosition) stop? u) := by
      rw [← hEntry]
      refine (ihThen hThenRegular hThen (hStop.mono (by omega)) hTracks).bind
        fun _ u t hTracks => ?_
      refine (agreement_simple hCalls hTracks hEifStatement (by simp [hEif]) hEifTargets
        (hStop.ne (by omega))).bind fun _ u t hTracks => ?_
      exact ihRest hRestRegular hRest (hStop.mono (by omega)) hTracks
    refine (agreement_visit hCalls h hStatement (hStop.ne (by omega))).bind
      fun _ u t hTracks => ?_
    by_cases hPolicy : x.options.branchPolicy = .bothArms
    · have hTake : u.takesElse ⟨start, some (start + thenArm.size + 1),
          start + thenArm.size + 1 + elseArm.size + 1⟩ (start + thenArm.size + 1) :=
        ⟨hTracks.options ▸ hPolicy, by dsimp only; omega⟩
      have hArmStop : StopsFrom (start + thenArm.size + 1 + elseArm.size + 1)
          (some (start + thenArm.size + 1 + elseArm.size + 1)) := by
        rintro stop ⟨⟩
        exact Nat.le_refl _
      have hArm := (agreement_simple hCalls hTracks hMidStatement (by simp [hMid]) hMidTargets
        (hArmStop.ne (by omega))).bind fun _ u t hTracks =>
          ihElse hElseRegular hElse (hArmStop.mono (by omega)) hTracks
      simp only [walks_of_stop] at hArm
      rw [if_pos hPolicy, proceed_bothArms hIf hBranch hTargets hTake]
      exact ((agreement_onCopy hTracks hArm).andThen _).bind fun _ u t hTracks => hTail hTracks
    · have hSkip : ¬u.takesElse ⟨start, some (start + thenArm.size + 1),
          start + thenArm.size + 1 + elseArm.size + 1⟩ (start + thenArm.size + 1) :=
        fun hTake => hPolicy (hTracks.options ▸ hTake.1)
      rw [if_neg hPolicy, proceed_thenArm hIf hBranch hTargets hSkip]
      exact hTail hTracks

theorem Tracks.enter (h : Tracks x g table before chain (room + 1) w s)
    (hAscending : g.counts.Ascending) (label : Label) :
    Tracks x g table (before ++ Event.allSteps s.tally.trace.reverse) (chain ++ [label]) room
      { w with walker := w.walker.enter label ⟨chain ++ [label], room⟩ }
      { s with tally := s.tally.openCall label } where
  options := h.options
  program := h.program
  capacity := by
    have hCapacity := h.capacity
    simp only [h.stack, CallStack.depth, Walker.enter, List.length_append,
      List.length_singleton] at hCapacity ⊢
    omega
  called := congrArg (SortedSet.add · label) h.called
  calls := CallGraph.merge_record hAscending s.tally.calls label ▸
    h.calls.record (CallGraph.ascending_merge hAscending _) label
  peak := h.peak
  steps := h.steps.trans (List.append_nil _).symm
  env := h.env
  stack := rfl
  started := h.started
  functions := h.functions

theorem Agrees.closeCall {l : Label} {outer : List Event}
    (h : Agrees x g (before ++ Event.allSteps outer.reverse) w s) :
    Agrees x g before w { s with tally := s.tally.closeCall l outer } :=
  { h with
    steps := by simp [h.steps, Tally.closeCall] }

theorem Tracks.leave {label : Label} {outer : List Event}
    (h : Tracks x g table (before ++ Event.allSteps outer.reverse) (chain ++ [label]) room w s) :
    Tracks x g table before chain (room + 1) w.leave
      { s with tally := s.tally.closeCall label outer } := by
  have hStack : w.walker.stack.pop = ⟨chain, room + 1⟩ := by
    simp [h.stack, CallStack.pop, CallStack.isEmpty]
  have hCapacity : w.walker.stack.pop.depth + w.walker.stack.pop.room =
      x.options.maxCallDepth := by
    have hBefore := h.capacity
    simp only [h.stack, CallStack.depth, List.length_append, List.length_singleton] at hBefore
    simp only [hStack, CallStack.depth]
    omega
  exact { h with
    capacity := hCapacity, steps := (h.toAgrees.closeCall (l := label)).steps, stack := hStack }

theorem agreement_entering {label : Label} {action : RunAction Unit}
    {out : Outcome Unit → Prop}
    (hOut : Agreement
      (Tracks x g table (before ++ Event.allSteps s.tally.trace.reverse) (chain ++ [label]) room)
      (Agrees x g (before ++ Event.allSteps s.tally.trace.reverse)) (fun a w => Eq (.ok a w))
      (action { s with tally := s.tally.openCall label }) out) :
    Agreement (Tracks x g table before chain (room + 1)) (Agrees x g before)
      (fun a w => Eq (.ok a w)) (RunAction.entering label action s)
      (andThen out fun _ w => Eq (.ok () w.leave)) := by
  cases hRun : action { s with tally := s.tally.openCall label } with
  | error e last =>
    rw [hRun] at hOut
    obtain ⟨u, rfl, hAgrees⟩ := hOut.eq_error
    rw [RunAction.entering_of_error hRun, andThen_error]
    exact .error hAgrees.closeCall
  | ok _ last =>
    rw [hRun] at hOut
    obtain ⟨u, rfl, hTracks⟩ := hOut.eq_ok
    rw [RunAction.entering_of_ok hRun, andThen_ok]
    exact .ok hTracks.leave

/-- A call of a walker where the run is, when calls further in agree. -/
theorem callsAgree_of_inner (hTable : table.Linked) (hAscending : g.counts.Ascending)
    (hInner : ∀ inner label, room = inner + 1 → CallsAgree x g table (chain ++ [label]) inner) :
    CallsAgree x g table chain room := by
  intro before body position st label w s h hStatement
  rw [calls_eq_andThen]
  have hRefused {fault : Fault}
      (hEnter : enter body position label w = .error (w.walker.error body position fault) w) :
      Agreement (Tracks x g table before chain room) (Agrees x g before) (fun a w => Eq (.ok a w))
        (.error (Activation.error ⟨x.program, chain, body.tag⟩ st fault) s)
        (andThen (Eq (enter body position label w)) fun callee w =>
          andThen (Walks callee (some 0) none w) fun _ w => Eq (.ok () w.leave)) := by
    rw [hEnter, h.error_eq hStatement, andThen_error]
    exact .error h.toAgrees
  cases hLookup : table.get? label with
  | none =>
    rw [RunAction.call_of_undefined (h.functions ▸ hLookup)]
    exact hRefused (by rw [enter, h.env, h.functions, hLookup])
  | some d =>
    cases hCycle : CallStack.cycle? chain label with
    | some cycle =>
      rw [RunAction.call_of_cycle (h.functions ▸ hLookup) hCycle]
      refine hRefused ?_
      simp only [enter, h.env, h.functions, hLookup, h.stack, CallStack.push, hCycle]
    | none =>
      cases room with
      | zero =>
        rw [RunAction.call_of_full (h.functions ▸ hLookup) hCycle]
        refine hRefused ?_
        simp only [enter, h.env, h.functions, hLookup, h.stack, CallStack.push, hCycle]
      | succ room =>
        have hEnter : enter body position label w =
            .ok d.body { w with walker := w.walker.enter label ⟨chain ++ [label], room⟩ } := by
          simp only [enter, h.env, h.functions, hLookup, h.stack, CallStack.push, hCycle]
        have hRegular := (hTable d (FunctionTable.mem_of_get? hLookup).1).regular
        have hBody := agreement_block (hInner room label rfl) hRegular
          (Block.placed_whole d.body) (.none _) (h.enter hAscending label)
        simp only [walks_of_left] at hBody
        rw [← walks_start] at hBody
        rw [RunAction.call_eq_enter (h.functions ▸ hLookup) hCycle, hEnter, andThen_ok]
        exact agreement_entering hBody

theorem callsAgree (hTable : table.Linked) (hAscending : g.counts.Ascending) (room : Nat)
    (chain : List Label) : CallsAgree x g table chain room := by
  induction room generalizing chain with
  | zero =>
    refine callsAgree_of_inner hTable hAscending fun inner label h => ?_
    cases h
  | succ room ih =>
    refine callsAgree_of_inner hTable hAscending fun inner label h => ?_
    cases h
    exact ih (chain ++ [label])

end Simulation

end Walking

namespace Walker

/-- A walker that has gathered from its programs what the session has, and may start on another
one with whatever it was left with. -/
structure Ready (x : Walker) (session : Session) : Prop where
  capacity : x.stack.depth + x.stack.room = x.options.maxCallDepth
  options : x.options = session.options
  calls : x.calls.Hold session.calls
  ascending : session.calls.counts.Ascending
  peak : x.peak = session.peak

variable {x : Walker} {session : Session} {font : Font} {tag : String} {env : Environment}

theorem ready_of_agrees (hx : x.Ready session) {w : Walking} {s : RunState}
    (h : Walking.Agrees (x.start tag) session.calls [] w s) (program : String) :
    w.walker.Ready (session.add (s.finished program)) where
  capacity := h.options ▸ h.capacity
  options := h.options.trans hx.options
  calls := h.calls
  ascending := CallGraph.ascending_merge hx.ascending _
  peak := h.peak.trans (congrArg (max · s.tally.peak) hx.peak)

theorem tracks_start (hx : x.Ready session) (tag : String) (env : Environment) :
    Walking.Tracks (x.start tag) session.calls env.functions [] [] x.options.maxCallDepth
      ⟨x.start tag, env⟩ { env } where
  options := rfl
  program := rfl
  capacity := by
    have hCapacity := hx.capacity
    simp only [start, CallStack.clear, CallStack.depth, List.length_nil] at hCapacity ⊢
    omega
  called := rfl
  calls := hx.calls
  peak := (Nat.max_zero _).symm
  steps := rfl
  env := rfl
  stack := by rw [start, CallStack.clear, Nat.add_comm, hx.capacity]
  started := rfl
  functions := rfl

theorem executes_unknown_iff (hProgram : font.programs.get? tag = none) {ended : Ended} :
    x.Executes font tag env ended ↔
      ended = ⟨.error ⟨tag, none, none, .unknownProgram tag⟩, env, x.start tag⟩ := by
  refine ⟨fun h => ?_, ?_⟩
  · cases h with
    | unknown => rfl
    | walked hKnown => cases hProgram.symm.trans hKnown
  · rintro rfl
    exact .unknown hProgram

theorem executes_walked_iff {program : Program} {r : Walking.Outcome Unit}
    (hProgram : font.programs.get? tag = some program)
    (hWalks : Walking.Walks program.body (some 0) none ⟨x.start tag, env⟩ = Eq r)
    {ended : Ended} : x.Executes font tag env ended ↔ ended = .ofOutcome r := by
  refine ⟨fun h => ?_, ?_⟩
  · cases h with
    | unknown hUnknown => cases hProgram.symm.trans hUnknown
    | walked hSame hEnds =>
      cases hProgram.symm.trans hSame
      rw [hWalks] at hEnds
      rw [hEnds]
  · rintro rfl
    exact .walked hProgram (hWalks ▸ rfl)

/-- A walker comes to one end only, that of the run. -/
theorem executes_of_ready (hx : x.Ready session) (hFont : font.Linked)
    (hEnv : env.functions.Linked) (tag : String) :
    ∃ walker, (∀ ended, x.Executes font tag env ended ↔ ended =
        ⟨(font.run x.options tag env).result, (font.run x.options tag env).env, walker⟩) ∧
      walker.Ready (session.add (font.run x.options tag env)) ∧
      walker.steps = Event.allSteps (font.run x.options tag env).trace := by
  cases hProgram : font.programs.get? tag with
  | none =>
    rw [Font.run_of_unknown hProgram]
    have hStart := (tracks_start hx tag env).toAgrees
    refine ⟨x.start tag, fun ended => ?_, ready_of_agrees hx hStart tag, rfl⟩
    exact executes_unknown_iff hProgram
  | some program =>
    have hWalks := Walking.agreement_block (Walking.callsAgree hEnv hx.ascending _ _)
      (hFont.programs tag program hProgram).regular (Block.placed_whole program.body) (.none _)
      (tracks_start hx tag env)
    simp only [Walking.walks_of_left] at hWalks
    rw [← Walking.walks_start] at hWalks
    change Walking.Agreement _ _ _ (RunAction.body x.options tag program.body { env }) _ at hWalks
    cases hRun : RunAction.body x.options tag program.body { env } with
    | error e s =>
      rw [hRun] at hWalks
      obtain ⟨w, hw, hAgrees⟩ := hWalks.eq_error
      rw [Font.run_of_error hProgram hRun]
      refine ⟨w.walker, fun ended => ?_, ready_of_agrees hx hAgrees tag, hAgrees.steps⟩
      rw [executes_walked_iff hProgram hw, Ended.ofOutcome, hAgrees.env]
      rfl
    | ok _ s =>
      rw [hRun] at hWalks
      obtain ⟨w, hw, hTracks⟩ := hWalks.eq_ok
      rw [Font.run_of_ok hProgram hRun]
      refine ⟨{ w.walker with called := {} }, fun ended => ?_,
        { ready_of_agrees hx hTracks.toAgrees tag with }, hTracks.steps⟩
      rw [executes_walked_iff hProgram hw, Ended.ofOutcome, hTracks.env, hTracks.called]
      rfl

end Walker

end Hinting
