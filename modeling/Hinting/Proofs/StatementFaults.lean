import Hinting.Proofs.StatementShape

/-!
# The faults of a statement

What applying a statement can come to: which faults it can meet, and when it asks for a
call. None of the faults is one of a run, such as a limit or a call that is refused.
-/

namespace Hinting

namespace Action

variable {ε σ α β : Type}

theorem except_map_eq_error {x : Except ε α} {f : α → β} {e : ε}
    (h : (do let a ← x; return f a) = Except.error e) : x = .error e := by
  cases x with
  | ok a => cases h
  | error e' =>
    cases h
    rfl

end Action

open Hinting.Action

namespace EnvAction

variable {α : Type} {m : Mnemonic}

theorem onStack_meets {action : StackAction α} (h : Raises (Fault.Meets m) action) :
    Raises (Fault.Meets m) (onStack action) := by
  intro env e after hError
  unfold onStack at hError
  split at hError
  · cases hError
  · rename_i fault stack hAction
    cases hError
    exact h _ _ _ hAction

theorem pop_meets : Raises (Fault.Meets m) pop :=
  onStack_meets StackAction.pop_meets

theorem discard_meets (count : Nat) : Raises (Fault.Meets m) (discard count) :=
  onStack_meets (StackAction.discard_meets count)

theorem setGraphics_meets (change : GraphicsState → GraphicsState) :
    Raises (Fault.Meets m) (setGraphics change) :=
  .modify _ _

theorem cvtPlace_meets {env : Environment} {index : Int32} {fault : Fault}
    (h : env.cvtPlace index = .error fault) : Fault.Meets m fault := by
  unfold Environment.cvtPlace at h
  split at h
  · cases h
  · cases h
    exact .invalidCvtIndex index

theorem storagePlace_meets {index : Int32} {fault : Fault}
    (h : Environment.storagePlace index = .error fault) : Fault.Meets m fault := by
  unfold Environment.storagePlace at h
  split at h
  · cases h
  · cases h
    exact .invalidStorageIndex index

theorem readCvt_meets (index : Value) : Raises (Fault.Meets m) (readCvt index) := by
  intro env e after h
  unfold readCvt at h
  split at h
  · cases h
  · rename_i fault hRead
    cases h
    cases index with
    | unknown => cases hRead
    | known index => exact cvtPlace_meets (except_map_eq_error hRead)

theorem writeCvt_meets (index value : Value) : Raises (Fault.Meets m) (writeCvt index value) := by
  intro env e after h
  unfold writeCvt at h
  split at h
  · cases h
  · rename_i fault hWrite
    cases h
    cases index with
    | unknown => cases hWrite
    | known index => exact cvtPlace_meets (except_map_eq_error hWrite)

theorem readStorage_meets (index : Value) : Raises (Fault.Meets m) (readStorage index) := by
  intro env e after h
  unfold readStorage at h
  split at h
  · cases h
  · rename_i fault hRead
    cases h
    cases index with
    | unknown => cases hRead
    | known index => exact storagePlace_meets (except_map_eq_error hRead)

theorem writeStorage_meets (index value : Value) :
    Raises (Fault.Meets m) (writeStorage index value) := by
  intro env e after h
  unfold writeStorage at h
  split at h
  · cases h
  · rename_i fault hWrite
    cases h
    cases index with
    | unknown => cases hWrite
    | known index => exact storagePlace_meets (except_map_eq_error hWrite)

theorem effect_meets {action : EnvAction Unit} (h : Raises (Fault.Meets m) action) :
    Raises (Fault.Meets m) (Statement.perform.effect action) :=
  h.bind fun _ => .pure _ _

end EnvAction

namespace Statement

open EnvAction

theorem closed_meets (s : Statement) : s.Closed (Raises (Fault.Meets s.mnemonic)) where
  done target := .pure _ target
  fail _ hMeets := .throw hMeets
  pop _ h := pop_meets.bind h
  discard count _ h := (discard_meets count).bind fun _ => h
  readCvt index _ h := (readCvt_meets index).bind h
  readStorage index _ h := (readStorage_meets index).bind h
  graphics _ h := .get_bind fun env => h env.graphics
  stack _ hEnds := effect_meets (onStack_meets hEnds.meets)
  setGraphics change _ := effect_meets (setGraphics_meets change)
  writeCvt index value := effect_meets (writeCvt_meets index value)
  writeStorage index value := effect_meets (writeStorage_meets index value)

theorem perform_meets (axisCount : Nat) (s : Statement) :
    Raises (Fault.Meets s.mnemonic) (s.perform axisCount) :=
  perform_of_closed s.closed_meets axisCount

theorem top?_of_pop {env after : Environment} {value : Value}
    (h : EnvAction.pop env = .ok value after) : env.stack.top? = some value := by
  unfold EnvAction.pop onStack StackAction.pop at h
  split at h
  · rename_i a stack hPop
    cases h
    split at hPop
    · cases hPop
    · rename_i first rest hValues
      cases hPop
      rw [ValueStack.top?, hValues]
      rfl
  · cases h

theorem callTarget_eq_ok {target : Value} {env after : Environment} {label : Label}
    (h : callTarget target env = .ok label after) : target = .known label := by
  cases target with
  | known other =>
    cases h
    rfl
  | unknown => cases h

theorem effect_eq_ok {action : EnvAction Unit} {env after : Environment} {target : Option Label}
    (h : perform.effect action env = .ok target after) : target = none := by
  obtain ⟨_, _, _, hNone⟩ := bind_eq_ok h
  cases hNone
  rfl

/-- Only a call asks for a function, for the one on top of the stack. -/
theorem perform_eq_ok_some {axisCount : Nat} {s : Statement} {env after : Environment}
    {label : Label} (h : s.perform axisCount env = .ok (some label) after) :
    (s.mnemonic = .CALL ∨ s.mnemonic = .LOOPCALL) ∧ env.stack.top? = some (.known label) := by
  unfold perform at h
  cases hMnemonic : s.mnemonic <;> simp only [hMnemonic] at h
  case CALL =>
    obtain ⟨value, popped, hPop, hRest⟩ := bind_eq_ok h
    obtain ⟨found, _, hTarget, hFound⟩ := bind_eq_ok hRest
    cases hFound
    exact ⟨.inl rfl, callTarget_eq_ok hTarget ▸ top?_of_pop hPop⟩
  case LOOPCALL =>
    obtain ⟨value, popped, hPop, hRest⟩ := bind_eq_ok h
    obtain ⟨_, _, _, hRest⟩ := bind_eq_ok hRest
    obtain ⟨found, _, hTarget, hFound⟩ := bind_eq_ok hRest
    cases hFound
    exact ⟨.inr rfl, callTarget_eq_ok hTarget ▸ top?_of_pop hPop⟩
  case IF =>
    obtain ⟨_, _, _, hNone⟩ := bind_eq_ok h
    cases hNone
  case ELSE | EIF | JMPR | JROT | JROF | FDEF | ENDF | IDEF => cases h
  all_goals cases effect_eq_ok h

end Statement

end Hinting
