import Hinting.Proofs.StatementShape

/-!
# Statements do not look at the function table

Only a run resolves calls. Applying a statement neither consults nor changes the
functions of the environment: with another table it does the same and leaves that
table in place.
-/

namespace Hinting

/-- The environment with another function table. -/
def Environment.withFunctions (functions : FunctionTable) (env : Environment) : Environment :=
  { env with functions }

namespace EnvAction

open Hinting.Action Environment

variable {α : Type} (functions : FunctionTable)

theorem onStack_ignores (action : StackAction α) :
    Ignores (withFunctions functions) (onStack action) := by
  intro env
  have hStack : (env.withFunctions functions).stack = env.stack := rfl
  simp only [onStack, hStack]
  cases action env.stack with
  | ok a stack => rfl
  | error fault stack => rfl

theorem setGraphics_ignores (change : GraphicsState → GraphicsState) :
    Ignores (withFunctions functions) (setGraphics change) :=
  fun _ => rfl

theorem readCvt_ignores (index : Value) : Ignores (withFunctions functions) (readCvt index) := by
  intro env
  have hRead : (env.withFunctions functions).readCvt index = env.readCvt index := rfl
  simp only [readCvt, hRead]
  cases env.readCvt index with
  | ok value => rfl
  | error fault => rfl

theorem readStorage_ignores (index : Value) :
    Ignores (withFunctions functions) (readStorage index) := by
  intro env
  have hRead : (env.withFunctions functions).readStorage index = env.readStorage index := rfl
  simp only [readStorage, hRead]
  cases env.readStorage index with
  | ok value => rfl
  | error fault => rfl

theorem writeCvt_ignores (index value : Value) :
    Ignores (withFunctions functions) (writeCvt index value) := by
  intro env
  cases index with
  | unknown => rfl
  | known index =>
    have hPlace : (env.withFunctions functions).cvtPlace index = env.cvtPlace index := rfl
    simp only [writeCvt, Environment.writeCvt, hPlace]
    cases env.cvtPlace index with
    | ok place => rfl
    | error fault => rfl

theorem writeStorage_ignores (index value : Value) :
    Ignores (withFunctions functions) (writeStorage index value) := by
  intro env
  cases index with
  | unknown => rfl
  | known index =>
    simp only [writeStorage, Environment.writeStorage]
    cases Environment.storagePlace index <;> rfl

theorem effect_ignores {action : EnvAction Unit} (h : Ignores (withFunctions functions) action) :
    Ignores (withFunctions functions) (Statement.perform.effect action) :=
  .bind h fun _ => .pure _ _

end EnvAction

namespace Statement

open Hinting.Action EnvAction

theorem closed_ignores (functions : FunctionTable) (s : Statement) :
    s.Closed (Ignores (Environment.withFunctions functions)) where
  done target := .pure _ target
  fail fault _ := .throw _ fault
  pop _ h := (onStack_ignores functions _).bind h
  discard _ _ h := (onStack_ignores functions _).bind fun _ => h
  readCvt index _ h := (readCvt_ignores functions index).bind h
  readStorage index _ h := (readStorage_ignores functions index).bind h
  graphics _ h := .get_bind (fun _ => rfl) fun env => h env.graphics
  stack action _ := effect_ignores functions (onStack_ignores functions action)
  setGraphics change _ := effect_ignores functions (setGraphics_ignores functions change)
  writeCvt index value := effect_ignores functions (writeCvt_ignores functions index value)
  writeStorage index value := effect_ignores functions (writeStorage_ignores functions index value)

/-- Applying a statement commutes with exchanging the function table. -/
theorem perform_ignores (functions : FunctionTable) (axisCount : Nat) (s : Statement) :
    Ignores (Environment.withFunctions functions) (s.perform axisCount) :=
  perform_of_closed (closed_ignores functions s) axisCount

theorem perform_functions {axisCount : Nat} {s : Statement} {env after : Environment}
    {target : Option Label} (h : s.perform axisCount env = .ok target after) :
    after.functions = env.functions := by
  have hSame := perform_ignores env.functions axisCount s env
  change s.perform axisCount env = _ at hSame
  rw [h, mapState, EStateM.Result.ok.injEq] at hSame
  rw [hSame.2]
  rfl

end Statement

end Hinting
