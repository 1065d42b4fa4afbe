import Hinting.Proofs.WalkerAgreement

/-!
# Walkers that are used again

A walker may have failed anywhere, inside of any calls, and may have been sent to programs
that do not exist. What it was left with then makes no difference to the next program: the
result and the environment are those of a walker that was never used, and the calls and the
peak of that one are added to what was gathered before.
-/

namespace Hinting

/-- The session after programs were run in it, each in an environment of its own. -/
def Session.afterRuns (session : Session) (font : Font) (history : List (String × Environment)) :
    Session :=
  history.foldl (fun session run => (session.execute font run.1 run.2).2) session

theorem Session.options_afterRuns (session : Session) (font : Font)
    (history : List (String × Environment)) :
    (session.afterRuns font history).options = session.options := by
  induction history generalizing session with
  | nil => rfl
  | cons run rest ih => exact ih _

theorem Session.execute_afterRuns (options : RunOptions) (font : Font)
    (history : List (String × Environment)) (tag : String) (env : Environment) :
    (Session.afterRuns { options } font history).execute font tag env =
      (font.run options tag env,
        (Session.afterRuns { options } font history).add (font.run options tag env)) := by
  rw [Session.execute, Session.options_afterRuns]

namespace Walker

/-- What a walker has become when it has run programs, also when they failed. -/
inductive AfterRuns (font : Font) : Walker → List (String × Environment) → Walker → Prop
  | nil {x : Walker} : AfterRuns font x [] x
  | cons {x used : Walker} {run : String × Environment} {rest : List (String × Environment)}
      {ended : Ended} : x.Executes font run.1 run.2 ended →
      AfterRuns font ended.walker rest used → AfterRuns font x (run :: rest) used

theorem afterRuns_nil_iff {font : Font} {x y : Walker} : AfterRuns font x [] y ↔ y = x := by
  refine ⟨fun h => ?_, ?_⟩
  · cases h
    rfl
  · rintro rfl
    exact .nil

theorem afterRuns_cons_iff {font : Font} {x y : Walker} {run : String × Environment}
    {rest : List (String × Environment)} {ended : Ended}
    (hEnds : ∀ r, x.Executes font run.1 run.2 r ↔ r = ended) :
    AfterRuns font x (run :: rest) y ↔ AfterRuns font ended.walker rest y := by
  refine ⟨fun h => ?_, .cons ((hEnds ended).mpr rfl)⟩
  cases h with
  | cons hFirst hRest =>
    rw [hEnds] at hFirst
    exact hFirst ▸ hRest

theorem ready_new (options : RunOptions) : Ready { options } { options } where
  capacity := Nat.zero_add _
  options := rfl
  calls := .empty
  ascending := .empty
  peak := rfl

theorem afterRuns_of_ready {x : Walker} {session : Session} {font : Font} (hx : x.Ready session)
    (hFont : font.Linked) {history : List (String × Environment)}
    (hHistory : ∀ run ∈ history, run.2.functions.Linked) :
    ∃ used, (∀ y, AfterRuns font x history y ↔ y = used) ∧
      used.Ready (session.afterRuns font history) := by
  induction history generalizing x session with
  | nil => exact ⟨x, fun y => afterRuns_nil_iff, hx⟩
  | cons run rest ih =>
    rw [List.forall_mem_cons] at hHistory
    obtain ⟨next, hNext, hReady, _⟩ := executes_of_ready hx hFont hHistory.1 run.1
    rw [hx.options] at hReady
    obtain ⟨used, hUsed, hUsedReady⟩ := ih hReady hHistory.2
    exact ⟨used, fun y => (afterRuns_cons_iff hNext).trans (hUsed y), hUsedReady⟩

/-- The runs of a walker and of a session go on together, from program to program. -/
theorem executes_afterRuns {font : Font} (hFont : font.Linked) (options : RunOptions)
    {history : List (String × Environment)} (hHistory : ∀ run ∈ history, run.2.functions.Linked)
    (tag : String) {env : Environment} (hEnv : env.functions.Linked) :
    ∃ used walker,
      (∀ y, AfterRuns font { options } history y ↔ y = used) ∧
      used.Ready (Session.afterRuns { options } font history) ∧
      (∀ r, used.Executes font tag env r ↔
        r = ⟨(font.run options tag env).result, (font.run options tag env).env, walker⟩) ∧
      walker.Ready
        ((Session.afterRuns { options } font history).add (font.run options tag env)) ∧
      walker.calls = (font.run options tag env).countInto used.calls ∧
      walker.steps = Event.allSteps (font.run options tag env).trace := by
  obtain ⟨used, hUsed, hReady⟩ := afterRuns_of_ready (ready_new options) hFont hHistory
  obtain ⟨walker, hEnds, hWalker, hSteps⟩ := executes_of_ready hReady hFont hEnv tag
  have hOptions : used.options = options :=
    hReady.options.trans (Session.options_afterRuns _ font history)
  rw [hOptions] at hEnds hWalker hSteps
  exact ⟨used, walker, hUsed, hReady, hEnds, hWalker, hWalker.calls.unique
    (Font.hold_countInto hReady.calls hReady.ascending font options tag env), hSteps⟩

/-- Whatever a walker has been through, it runs the next program as a new one would. -/
theorem executes_afterRuns_iff_new {programs : List (String × String)} {cvt : List Int32}
    {font : Font} (hLoad : Font.load programs cvt = .ok font) (options : RunOptions)
    {history : List (String × Environment)} (hHistory : ∀ run ∈ history, run.2.functions.Linked)
    (tag : String) {env : Environment} (hEnv : env.functions.Linked) :
    ∃ used ended fresh,
      (∀ y, AfterRuns font { options } history y ↔ y = used) ∧
      (∀ r, used.Executes font tag env r ↔ r = ended) ∧
      (∀ r, Executes { options } font tag env r ↔ r = fresh) ∧
      ended.result = fresh.result ∧ ended.env = fresh.env ∧
      ((∃ w, ended.walker.calls = some w) ↔
        ∃ u v, used.calls = some u ∧ fresh.walker.calls = some v ∧
          ∀ label, (u.count label).toNat + (v.count label).toNat < 0x100000000) ∧
      (∀ u v w, used.calls = some u → fresh.walker.calls = some v →
        ended.walker.calls = some w →
        ∀ label, (w.count label).toNat = (u.count label).toNat + (v.count label).toNat) ∧
      ended.walker.peak = max used.peak fresh.walker.peak ∧
      ∃ run session,
        (Session.afterRuns { options } font history).execute font tag env = (run, session) ∧
        run.result = ended.result ∧ run.env = ended.env ∧
        (∀ w, ended.walker.calls = some w ↔ w.Represents session.calls) ∧
        ended.walker.peak = session.peak := by
  have hFont := Font.linked_of_load hLoad
  obtain ⟨used, walker, hUsed, hReady, hEnds, hWalker, _⟩ :=
    executes_afterRuns hFont options hHistory tag hEnv
  obtain ⟨new, hFresh, hNew, _⟩ := executes_of_ready (ready_new options) hFont hEnv tag
  have hRun := font.ascending_calls_run options tag env
  have hCount (label : Label) : ((Session.afterRuns { options } font history).calls.merge
      (font.run options tag env).calls).count label =
        (Session.afterRuns { options } font history).calls.count label +
          (CallGraph.empty.merge (font.run options tag env).calls).count label := by
    rw [CallGraph.count_merge_of_ascending hReady.ascending hRun,
      CallGraph.count_merge_of_ascending (g := .empty) .empty hRun]
    exact congrArg _ (Nat.zero_add _).symm
  refine ⟨used, _, _, hUsed, hEnds, hFresh, rfl, rfl, ?_, fun u v w hu hv hw label => ?_, ?_,
    font.run options tag env, _, Session.execute_afterRuns options font history tag env, rfl, rfl,
    hWalker.calls, hWalker.peak⟩
  · exact hReady.calls.exists_iff_of_count_eq_add hReady.ascending hNew.calls hNew.ascending
      hWalker.calls hWalker.ascending hCount
  · rw [((hReady.calls u).mp hu).toNat_count, ((hNew.calls v).mp hv).toNat_count,
      ((hWalker.calls w).mp hw).toNat_count]
    exact hCount label
  · rw [hWalker.peak, hNew.peak, hReady.peak]
    exact congrArg (max _) (Nat.zero_max _).symm

/-- The first program fails two calls deep, where there is no room for more, and the second one
does not exist. The third one needs the same two calls. -/
theorem executes_afterRuns_iff_new_failed_calls :
    ∃ (options : RunOptions) (font : Font) (used : Walker) (ended fresh : Ended)
      (called : LabelSet) (u v w : WordGraph), options.maxCallDepth = 2 ∧
      Font.load
        [("fpgm", "PUSHB[ ] 1 0 FDEF[ ] PUSHB[ ] 1 CALL[ ] ENDF[ ] FDEF[ ] POP[ ] ENDF[ ]"),
          ("A", "PUSHB[ ] 7 0 CALL[ ]"), ("B", "PUSHB[ ] 0 CALL[ ]")] [] = .ok font ∧
      (font.run options "B" font.initialEnvironment).failed = true ∧
      (font.run options "C" font.initialEnvironment).failed = true ∧
      AfterRuns font { options }
        [("B", font.initialEnvironment), ("C", font.initialEnvironment)] used ∧
      used.Executes font "A" font.initialEnvironment ended ∧
      Executes { options } font "A" font.initialEnvironment fresh ∧
      ended.result = .ok called ∧ fresh.result = .ok called ∧ ended.env = fresh.env ∧
      used.calls = some u ∧ fresh.walker.calls = some v ∧ ended.walker.calls = some w ∧
      (w.count 1).toNat = (u.count 1).toNat + (v.count 1).toNat ∧ (w.count 1).toNat = 2 := by
  let options : RunOptions := { maxCallDepth := 2 }
  have hEvaluated : ((Font.load
      [("fpgm", "PUSHB[ ] 1 0 FDEF[ ] PUSHB[ ] 1 CALL[ ] ENDF[ ] FDEF[ ] POP[ ] ENDF[ ]"),
        ("A", "PUSHB[ ] 7 0 CALL[ ]"), ("B", "PUSHB[ ] 0 CALL[ ]")] []).toOption.bind fun font =>
        (font.run options "A" font.initialEnvironment).result.toOption.map fun _ =>
          ((font.run options "B" font.initialEnvironment).failed,
            (font.run options "C" font.initialEnvironment).failed,
            ((Session.afterRuns { options } font
              [("B", font.initialEnvironment), ("C", font.initialEnvironment)]).execute font "A"
                font.initialEnvironment).2.calls)) =
      some (true, true, ⟨⟨[(0, 2), (1, 2)]⟩⟩) := by
    decide +kernel
  obtain ⟨font, hFont, hRest⟩ := Option.bind_eq_some_iff.mp hEvaluated
  obtain ⟨called, hCalled, hRuns⟩ := Option.map_eq_some_iff.mp hRest
  obtain ⟨hFirst, hOthers⟩ := Prod.mk.inj hRuns
  obtain ⟨hSecond, hGraph⟩ := Prod.mk.inj hOthers
  have hLoad := Action.eq_ok_of_toOption hFont
  have hLinked : font.initialEnvironment.functions.Linked := (Font.linked_of_load hLoad).functions
  have hHistory : ∀ run ∈ [("B", font.initialEnvironment), ("C", font.initialEnvironment)],
      run.2.functions.Linked := by simp [hLinked]
  obtain ⟨used, ended, fresh, hUsed, hEnded, hFresh, hResult, hEnv, hRoom, hCalls, _, run, session,
    hRun, hSame, _, hCounters, _⟩ := executes_afterRuns_iff_new hLoad options hHistory "A" hLinked
  have hSelf : font.run options "A" font.initialEnvironment = run := congrArg Prod.fst hRun
  have hOk : ended.result = .ok called := by
    rw [← hSame, ← hSelf]
    exact Action.eq_ok_of_toOption hCalled
  rw [hRun] at hGraph
  have hw : ended.walker.calls = some ⟨⟨[(0, 2), (1, 2)]⟩⟩ :=
    (hCounters _).mpr (congrArg CallGraph.counts hGraph).symm
  obtain ⟨u, v, hu, hv, _⟩ := hRoom.mp ⟨_, hw⟩
  exact ⟨options, font, used, ended, fresh, called, u, v, _, rfl, hLoad, hFirst, hSecond,
    (hUsed used).mpr rfl, (hEnded ended).mpr rfl, (hFresh fresh).mpr rfl, hOk, hResult ▸ hOk, hEnv,
    hu, hv, hw, hCalls u v _ hu hv hw 1, by decide⟩

end Walker

end Hinting
