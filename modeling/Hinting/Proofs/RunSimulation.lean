import Hinting.Proofs.BlockReading
import Hinting.Proofs.Lookup
import Hinting.Proofs.RunStep

/-!
# Simulation of runs

Two runs go through blocks of one shape whose statements have the same effects. Their
environments are related, and what they have recorded agrees, traces apart. The second
run succeeds and calls only functions in use. Then the first run succeeds too, or it
meets a fault that the simulation allows.

What a simulation has to provide is said about one statement and one look-up of a
function. That the functions in use are enough is known at the end of the second run
only; the functions called never become fewer, so it holds throughout.
-/

namespace Hinting

open Hinting.Action

/-- Statements that no environment tells apart. -/
def Statement.Alike (s t : Statement) : Prop :=
  ∀ axisCount, s.perform axisCount = t.perform axisCount

theorem Statement.Alike.refl (s : Statement) : s.Alike s :=
  fun _ => rfl

/-- Blocks of one shape with such statements. -/
abbrev Block.Alike (b c : Block) : Prop :=
  Block.Related Statement.Alike b c

theorem Block.Alike.refl (b : Block) : b.Alike b :=
  Block.Related.refl Statement.Alike.refl b

/-- The records agree, apart from the traces. -/
structure Tally.Agrees (t u : Tally) : Prop where
  executed : t.executed = u.executed
  called : t.called = u.called
  calls : t.calls = u.calls
  peak : t.peak = u.peak

structure RunState.Related (R : Environment → Environment → Prop) (s t : RunState) : Prop where
  env : R s.env t.env
  tally : s.tally.Agrees t.tally

/-- The runs have the same outcome, traces apart, and leave related environments. -/
structure Run.Agrees (R : Environment → Environment → Prop) (r q : Run) : Prop where
  program : r.program = q.program
  result : r.result = q.result
  executed : r.executed = q.executed
  calls : r.calls = q.calls
  peak : r.peak = q.peak
  env : R r.env q.env

/-- What relates the environments of a simulating and of a simulated run. -/
structure Simulation (axisCount : Nat) (used : Label → Prop) (allowed : Fault → Prop)
    (R : Environment → Environment → Prop) : Prop where
  perform : ∀ s : Statement, Matches allowed R Eq (s.perform axisCount) (s.perform axisCount)
  lookup : ∀ e f, R e f → ∀ label d, used label → f.functions.get? label = some d →
    ∃ d', e.functions.get? label = some d' ∧ d'.body.block.Alike d.body.block
  peak : ∀ e f, R e f → e.stack.peak = f.stack.peak

def Follows (used : Label → Prop) (allowed : Fault → Prop) (R : Environment → Environment → Prop)
    (x y : RunAction Unit) : Prop :=
  ∀ s t, RunState.Related R s t → ∀ t', y t = .ok () t' →
    (∀ label, t'.tally.called.contains label = true → used label) →
    (∃ s', x s = .ok () s' ∧ RunState.Related R s' t') ∨
      ∃ error s', x s = .error error s' ∧ allowed error.fault

theorem runInvariant_called (options : RunOptions) (label : Label) :
    RunInvariant options fun s => s.tally.called.contains label = true where
  dispatch a s state target reached hState hOk := by
    obtain ⟨_, env, _, rfl⟩ := RunAction.dispatch_eq_ok_iff.mp hOk
    exact hState
  openCall state other d hState _ := (SortedSet.contains_add _ other label).mpr (.inr hState)
  closeCall _ _ _ hState := hState
  dropCopy _ _ _ hReached := hReached

namespace Follows

variable {used : Label → Prop} {allowed : Fault → Prop} {R : Environment → Environment → Prop}

theorem pure : Follows used allowed R (pure ()) (pure ()) := by
  intro s t hst t' hy _
  cases hy
  exact .inl ⟨s, rfl, hst⟩

theorem bind {x y : RunAction Unit} {x' y' : RunAction Unit} (h : Follows used allowed R x y)
    (h' : Follows used allowed R x' y')
    (hGrows : ∀ label, Preserves (fun s => s.tally.called.contains label = true) y') :
    Follows used allowed R (x >>= fun _ => x') (y >>= fun _ => y') := by
  intro s t hst t' hy hUsed
  obtain ⟨_, u, hu, ht⟩ := bind_eq_ok hy
  have hUsedThere : ∀ label, u.tally.called.contains label = true → used label :=
    fun label hLabel => hUsed label (hGrows label u () t' hLabel ht)
  rcases h s t hst u hu hUsedThere with ⟨s', hx, hRelated⟩ | ⟨error, s', hx, hAllowed⟩
  · rcases h' s' u hRelated t' ht hUsed with ⟨s'', hx', hEnd⟩ | ⟨error, s'', hx', hAllowed⟩
    · exact .inl ⟨s'', by rw [bind_apply, hx]; exact hx', hEnd⟩
    · exact .inr ⟨error, s'', by rw [bind_apply, hx]; exact hx', hAllowed⟩
  · exact .inr ⟨error, s', by rw [bind_apply, hx], hAllowed⟩

theorem onCopy {x y : RunAction Unit} (h : Follows used allowed R x y) :
    Follows used allowed R (RunAction.onCopy x) (RunAction.onCopy y) := by
  intro s t hst t' hy hUsed
  obtain ⟨last, hLast, rfl⟩ := RunAction.onCopy_eq_ok hy
  rcases h s t hst last hLast hUsed with ⟨s', hx, hRelated⟩ | ⟨error, s', hx, hAllowed⟩
  · exact .inl ⟨{ s' with env := s.env }, by rw [RunAction.onCopy, hx], hst.env, hRelated.tally⟩
  · exact .inr ⟨error, { s' with env := s.env }, by rw [RunAction.onCopy, hx], hAllowed⟩

theorem entering {x y : RunAction Unit} (h : Follows used allowed R x y) (label : Label) :
    Follows used allowed R (RunAction.entering label x) (RunAction.entering label y) := by
  intro s t hst t' hy hUsed
  obtain ⟨last, hLast, rfl⟩ := RunAction.entering_eq_ok hy
  have hOpen : RunState.Related R { s with tally := s.tally.openCall label }
      { t with tally := t.tally.openCall label } := by
    obtain ⟨hEnv, hExecuted, hCalled, hCalls, hPeak⟩ := hst
    refine ⟨hEnv, hExecuted, ?_, ?_, hPeak⟩
    · exact congrArg (SortedSet.add · label) hCalled
    · exact congrArg (CallGraph.record · label) hCalls
  rcases h _ _ hOpen last hLast hUsed with ⟨s', hx, hEnv, hTally⟩ | ⟨error, s', hx, hAllowed⟩
  · refine .inl ⟨{ s' with tally := s'.tally.closeCall label s.tally.trace },
      by rw [RunAction.entering, hx], hEnv, ?_⟩
    exact ⟨hTally.executed, hTally.called, hTally.calls, hTally.peak⟩
  · exact .inr ⟨error, { s' with tally := s'.tally.closeCall label s.tally.trace },
      by rw [RunAction.entering, hx], hAllowed⟩

theorem block {visit visit' : Statement → RunAction Unit}
    (hVisit : ∀ s t, s.Alike t → Follows used allowed R (visit s) (visit' t))
    (hGrows : ∀ label s, Preserves (fun s => s.tally.called.contains label = true) (visit' s))
    (options : RunOptions) (policy : BranchPolicy) {b c : Block} (h : b.Alike c) :
    Follows used allowed R (b.run policy visit) (c.run policy visit') := by
  have hBlock (label : Label) (c : Block) :=
    (runInvariant_called options label).block policy (hGrows label) c
  induction h with
  | nil => exact pure
  | step hs _ ih => exact (hVisit _ _ hs).bind ih fun label => hBlock label _
  | cond hs _ hEif _ ihThen ihRest =>
    exact (hVisit _ _ hs).bind
      (ihThen.bind ((hVisit _ _ hEif).bind ihRest fun label => hBlock label _) fun label =>
        (hGrows label _).bind fun _ => hBlock label _)
      fun label => (hBlock label _).bind fun _ => (hGrows label _).bind fun _ => hBlock label _
  | @condElse s t mid other eif end' thenArm arm elseArm otherArm rest tail hs _ hMid _ hEif _
      ihThen ihElse ihRest =>
    have hTailGrows (label : Label) : Preserves (fun s => s.tally.called.contains label = true) (do
        arm.run policy visit'
        visit' end'
        tail.run policy visit') :=
      (hBlock label _).bind fun _ => (hGrows label _).bind fun _ => hBlock label _
    have hTail := ihThen.bind ((hVisit _ _ hEif).bind ihRest fun label => hBlock label _)
      fun label => (hGrows label _).bind fun _ => hBlock label _
    by_cases hPolicy : policy = .bothArms
    · simp only [Block.run, if_pos hPolicy]
      have hElse := ((hVisit _ _ hMid).bind ihElse fun label => hBlock label _).onCopy
      exact (hVisit _ _ hs).bind (hElse.bind hTail hTailGrows) fun label =>
        ((runInvariant_called options label).onCopy
          ((hGrows label _).bind fun _ => hBlock label _)).bind fun _ => hTailGrows label
    · simp only [Block.run, if_neg hPolicy]
      exact (hVisit _ _ hs).bind hTail hTailGrows

end Follows

namespace Simulation

variable {options : RunOptions} {used : Label → Prop} {allowed : Fault → Prop}
  {R : Environment → Environment → Prop}

theorem dispatch (h : Simulation options.axisCount used allowed R) (a a' : Activation)
    {s t : Statement} (hAlike : s.Alike t) {state other between : RunState}
    (hRelated : RunState.Related R state other) {target : Option Label}
    (hOk : RunAction.dispatch options a' t other = .ok target between) :
    (∃ reached, RunAction.dispatch options a s state = .ok target reached ∧
        RunState.Related R reached between) ∨
      ∃ error reached, RunAction.dispatch options a s state = .error error reached ∧
        allowed error.fault := by
  obtain ⟨hBudget, env, hPerform, rfl⟩ := RunAction.dispatch_eq_ok_iff.mp hOk
  rw [← hRelated.tally.executed] at hBudget
  rw [← hAlike] at hPerform
  rcases h.perform s _ _ hRelated.env target env hPerform with
    ⟨_, env', hMatch, rfl, hEnv⟩ | ⟨fault, env', hMatch, hAllowed⟩
  · refine .inl ⟨_, RunAction.dispatch_eq_ok_iff.mpr ⟨hBudget, env', hMatch, rfl⟩, hEnv, ?_⟩
    obtain ⟨_, hExecuted, hCalled, hCalls, hPeak⟩ := hRelated
    refine ⟨congrArg (· + 1) hExecuted, hCalled, hCalls, ?_⟩
    change max state.tally.peak env'.stack.peak = max other.tally.peak env.stack.peak
    rw [hPeak, h.peak _ _ hEnv]
  · refine .inr ⟨a.error s fault,
      ⟨env', state.tally.addStep ⟨a.chain, a.tag, s, state.env, env'⟩⟩, ?_, hAllowed⟩
    rw [RunAction.dispatch, if_neg (by omega), hMatch]

theorem visit (h : Simulation options.axisCount used allowed R) (a a' : Activation)
    {call call' : (Fault → ExecutionError) → Label → RunAction Unit}
    (hCall : ∀ blame blame' label, Follows used allowed R (call blame label) (call' blame' label))
    (s t : Statement) (hAlike : s.Alike t) :
    Follows used allowed R (RunAction.visit options a call s)
      (RunAction.visit options a' call' t) := by
  intro state other hRelated t' hOk hUsed
  rcases RunAction.visit_eq_ok hOk with hDispatch | ⟨label, between, hDispatch, hRest⟩
  · rcases h.dispatch a a' hAlike hRelated hDispatch with
      ⟨reached, hReached, hEnd⟩ | ⟨error, reached, hReached, hAllowed⟩
    · exact .inl ⟨reached, by rw [RunAction.visit, bind_apply, hReached]; rfl, hEnd⟩
    · exact .inr ⟨error, reached, by rw [RunAction.visit, bind_apply, hReached], hAllowed⟩
  · rcases h.dispatch a a' hAlike hRelated hDispatch with
      ⟨reached, hReached, hBetween⟩ | ⟨error, reached, hReached, hAllowed⟩
    · rcases hCall (a.error s) _ label reached between hBetween t' hRest hUsed with
        ⟨last, hLast, hEnd⟩ | ⟨error, last, hLast, hAllowed⟩
      · exact .inl ⟨last, by rw [RunAction.visit, bind_apply, hReached]; exact hLast, hEnd⟩
      · exact .inr ⟨error, last, by rw [RunAction.visit, bind_apply, hReached]; exact hLast,
          hAllowed⟩
    · exact .inr ⟨error, reached, by rw [RunAction.visit, bind_apply, hReached], hAllowed⟩

theorem call (h : Simulation options.axisCount used allowed R) (program : String) (room : Nat)
    (chain : List Label) (blame blame' : Fault → ExecutionError) (label : Label) :
    Follows used allowed R (RunAction.call options program room chain blame label)
      (RunAction.call options program room chain blame' label) := by
  -- the room falls with every call entered; the callee is in use because the simulated run
  -- has recorded it
  induction room generalizing chain blame blame' label with
  | zero =>
    intro state other _ t' hOk _
    obtain ⟨d, inner, _, _, hRoom, _⟩ := RunAction.call_eq_ok hOk
    cases hRoom
  | succ room ih =>
    intro state other hRelated t' hOk hUsed
    obtain ⟨d, inner, hLookup, hCycle, hRoom, hEnter⟩ := RunAction.call_eq_ok hOk
    cases hRoom
    have hGrows (other : Label) := fun (a : Activation) (s : Statement) =>
      (runInvariant_called options other).visit a
        ((runInvariant_called options other).call program room (chain ++ [label])) s
    have hLabel : used label := by
      obtain ⟨last, hLast, rfl⟩ := RunAction.entering_eq_ok hEnter
      apply hUsed label
      exact (runInvariant_called options label).block options.branchPolicy (hGrows label _)
        d.body.block _ () last ((SortedSet.contains_add _ label label).mpr (.inl rfl)) hLast
    obtain ⟨d', hLookup', hAlike⟩ := h.lookup _ _ hRelated.env label d hLabel hLookup
    have hBody := Follows.block
      (h.visit ⟨program, chain ++ [label], d'.body.tag⟩ ⟨program, chain ++ [label], d.body.tag⟩
        (ih (chain ++ [label])))
      (fun other => hGrows other _) options options.branchPolicy hAlike
    rcases hBody.entering label state other hRelated t' hEnter hUsed with
      ⟨s', hx, hEnd⟩ | ⟨error, s', hx, hAllowed⟩
    · exact .inl ⟨s', (RunAction.call_eq_enter hLookup' hCycle).trans hx, hEnd⟩
    · exact .inr ⟨error, s', (RunAction.call_eq_enter hLookup' hCycle).trans hx, hAllowed⟩

theorem body (h : Simulation options.axisCount used allowed R) (program : String) {b c : Body}
    (hAlike : b.block.Alike c.block) :
    Follows used allowed R (RunAction.body options program b)
      (RunAction.body options program c) :=
  Follows.block (h.visit _ _ (h.call program _ _))
    (fun label => (runInvariant_called options label).visit _
      ((runInvariant_called options label).call program _ _))
    options _ hAlike

theorem run (h : Simulation options.axisCount used allowed R) {font other : Font} {tag : String}
    (hBody : (font.programs.get? tag).map (·.body) = (other.programs.get? tag).map (·.body))
    {env env' : Environment} (hEnv : R env env') {called : LabelSet}
    (hOk : (other.run options tag env').result = .ok called)
    (hUsed : ∀ label, called.contains label = true → used label) :
    (font.run options tag env).Agrees R (other.run options tag env') ∨
      ∃ error, (font.run options tag env).result = .error error ∧ allowed error.fault := by
  cases hProgram' : other.programs.get? tag with
  | none =>
    simp only [Font.run, hProgram'] at hOk
    cases hOk
  | some program' =>
    rw [hProgram', Option.map_some, Option.map_eq_some_iff] at hBody
    obtain ⟨program, hProgram, hBody⟩ := hBody
    simp only [Font.run, hProgram, hProgram', hBody] at hOk ⊢
    cases hRun' : RunAction.body options tag program'.body { env := env' } with
    | error error state => rw [hRun'] at hOk; cases hOk
    | ok _ state' =>
      rw [hRun'] at hOk
      cases hOk
      have hStart : RunState.Related R { env := env } { env := env' } :=
        ⟨hEnv, ⟨rfl, rfl, rfl, rfl⟩⟩
      rcases h.body tag (.refl program'.body.block) _ _ hStart state' hRun' hUsed with
        ⟨state, hRun, hRelated⟩ | ⟨error, state, hRun, hAllowed⟩
      · rw [hRun]
        obtain ⟨hEnd, hExecuted, hCalled, hCalls, hPeak⟩ := hRelated
        exact .inl ⟨rfl, congrArg Except.ok hCalled, hExecuted, hCalls, hPeak, hEnd⟩
      · rw [hRun]
        exact .inr ⟨error, rfl, hAllowed⟩

end Simulation

end Hinting
