import Hinting.Proofs.PrecisionStep
import Hinting.Proofs.RunSimulation

/-!
# Runs respect what is known

What a run finds out from an environment that knows little holds of every environment
that knows more: the same functions are called as often, as many statements are applied
and the stack grows as high. The run can only stop earlier, with a fault that an
unknown value hid.
-/

namespace Hinting

theorem simulation_below (axisCount : Nat) :
    Simulation axisCount (fun _ => True) Fault.Revealed Environment.Below where
  perform := Statement.perform_refines axisCount
  lookup e f h label d _ hLookup := ⟨d, by rw [h.functions, hLookup], .refl _⟩
  peak e f h := h.stack.peak

theorem Session.execute_of_below (session : Session) (font : Font) (tag : String)
    {env env' : Environment} (hEnv : env.Below env') {called : LabelSet}
    (hOk : (session.execute font tag env').1.result = .ok called) :
    ((session.execute font tag env).1.Agrees Environment.Below (session.execute font tag env').1 ∧
        (session.execute font tag env).2 = (session.execute font tag env').2) ∨
      ∃ error, (session.execute font tag env).1.result = .error error ∧ error.fault.Revealed := by
  rcases (simulation_below session.options.axisCount).run rfl hEnv hOk fun _ _ => trivial with
    hAgrees | hError
  · refine .inl ⟨hAgrees, ?_⟩
    simp only [Session.execute, Session.add, hAgrees.calls, hAgrees.peak]
  · exact .inr hError

theorem Environment.Below.refl (env : Environment) : env.Below env where
  stack := ⟨List.forall₂_same.mpr fun a _ => .refl a, rfl⟩
  graphics := .refl _
  cvt := List.forall₂_same.mpr fun a _ => .refl a
  storage index a b ha hb := by
    rw [ha] at hb
    cases hb
    exact .refl _
  functions := rfl

/-- A call and a condition behind a control value of which nothing is known. -/
theorem Session.execute_of_below_unknown_cvt :
    ∃ (session : Session) (font : Font) (env env' : Environment) (called : LabelSet),
      session.options.branchPolicy = .bothArms ∧
      Font.load
        [("fpgm", "PUSHB[ ] 4 FDEF[ ] PUSHB[ ] 0 RCVT[ ] ENDF[ ]"),
          ("prep", "PUSHB[ ] 4 CALL[ ] IF[ ] CLEAR[ ] ELSE[ ] PUSHB[ ] 1 2 EIF[ ]")]
        [7] = .ok font ∧
      env = font.initialEnvironment ∧ env' = { env with cvt := [.unknown] } ∧
      env.Below env' ∧
      (session.execute font "prep" env').1.result = .ok called ∧ called.contains 4 = true ∧
      (((session.execute font "prep" env).1.Agrees Environment.Below
            (session.execute font "prep" env').1 ∧
          (session.execute font "prep" env).2 = (session.execute font "prep" env').2) ∨
        ∃ error, (session.execute font "prep" env).1.result = .error error ∧
          error.fault.Revealed) := by
  let session : Session := { options := { branchPolicy := .bothArms } }
  have hEvaluated : ((Font.load
      [("fpgm", "PUSHB[ ] 4 FDEF[ ] PUSHB[ ] 0 RCVT[ ] ENDF[ ]"),
        ("prep", "PUSHB[ ] 4 CALL[ ] IF[ ] CLEAR[ ] ELSE[ ] PUSHB[ ] 1 2 EIF[ ]")]
      [7]).toOption.map fun font =>
        (font.cvt, (session.execute font "prep"
          { font.initialEnvironment with cvt := [.unknown] }).1.result.toOption.map
            (·.contains 4))) = some ([7], some true) := by
    decide +kernel
  obtain ⟨font, hFont, hRun⟩ := Option.map_eq_some_iff.mp hEvaluated
  obtain ⟨hCvt, hCalled⟩ := Prod.mk.inj hRun
  obtain ⟨called, hResult, hContains⟩ := Option.map_eq_some_iff.mp hCalled
  have hBelow :
      font.initialEnvironment.Below { font.initialEnvironment with cvt := [.unknown] } := by
    refine { Environment.Below.refl font.initialEnvironment with cvt := ?_ }
    rw [Font.initialEnvironment, Environment.initial, hCvt]
    exact .cons (Value.below_unknown _) .nil
  have hOk := Action.eq_ok_of_toOption hResult
  exact ⟨session, font, _, _, called, rfl, Action.eq_ok_of_toOption hFont, rfl, rfl, hBelow, hOk,
    hContains, session.execute_of_below font "prep" hBelow hOk⟩

end Hinting
