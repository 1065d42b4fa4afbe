import Hinting.Proofs.Canonical
import Hinting.Proofs.StatementShape

/-!
# What a statement changes

A statement takes its operands off the stack before it pushes results, and beside the stack it
changes at most one other part of the environment, also when it fails on the way. It sets registers
of the graphics state, some of them only to values that it has checked, or it writes control values
or storage locations. What a run preserves of these parts follows from the rules of
`Statement.Sets` and `Statement.Alters`.
-/

namespace Hinting

open Hinting.Action

namespace Statement

/-- What a statement can make of an environment, with whatever stack it leaves. -/
inductive Alters (s : Statement) (env : Environment) : Environment → Prop
  | stack (stack : ValueStack) : Alters s env { env with stack }
  | graphics (stack : ValueStack) {graphics : GraphicsState} : s.Sets env.graphics graphics →
      Alters s env { env with stack, graphics }
  | cvt (stack : ValueStack) {cvt : List Value} : cvt.length = env.cvt.length →
      Alters s env { env with stack, cvt }
  | storage (stack : ValueStack) {storage : SortedMap Nat Value} (unwritten : Value) :
      (∀ place ∈ storage.keys, place ∈ env.storage.keys ∨ place < 0x80000000) →
      Alters s env { env with stack, storage, unwritten }

end Statement

/-- At most the stack was changed. -/
def Environment.OnStack (env after : Environment) : Prop :=
  ∃ stack, after = { env with stack }

namespace Environment.OnStack

variable {env between after : Environment}

theorem refl (env : Environment) : env.OnStack env :=
  ⟨env.stack, rfl⟩

theorem alters (h : env.OnStack after) (s : Statement) : s.Alters env after := by
  obtain ⟨stack, rfl⟩ := h
  exact .stack stack

theorem then_alters {s : Statement} (h : env.OnStack between) (h' : s.Alters between after) :
    s.Alters env after := by
  obtain ⟨_, rfl⟩ := h
  cases h' with
  | stack stack => exact .stack stack
  | graphics stack hSets => exact .graphics stack hSets
  | cvt stack hLength => exact .cvt stack hLength
  | storage stack unwritten hKeys => exact .storage stack unwritten hKeys

end Environment.OnStack

namespace EnvAction

open Environment

variable {α β : Type} {s : Statement} {x : EnvAction α} {f : α → EnvAction β}

theorem onStack_onStack (action : StackAction α) : Moves OnStack (onStack action) := by
  intro env
  unfold onStack
  split
  · exact ⟨_, rfl⟩
  · exact ⟨_, rfl⟩

theorem pure_onStack (a : α) : Moves OnStack (pure a : EnvAction α) :=
  OnStack.refl

theorem throw_onStack (fault : Fault) : Moves OnStack (throw fault : EnvAction α) :=
  OnStack.refl

theorem alters_of_onStack (hx : Moves OnStack x) (s : Statement) : Moves s.Alters x :=
  hx.mono fun _ _ h => h.alters s

theorem bind_alters (hx : Moves OnStack x) (hf : ∀ a, Moves s.Alters (f a)) :
    Moves s.Alters (x >>= f) :=
  hx.bind hf (fun _ _ h => h.alters s) fun _ _ _ => OnStack.then_alters

theorem effect_alters {action : EnvAction Unit} (h : Moves s.Alters action) :
    Moves s.Alters (Statement.perform.effect action) :=
  h.bind (fun _ _ => rfl) (fun _ _ h => h) fun _ _ _ h hSame => hSame ▸ h

theorem pop_onStack : Moves OnStack pop :=
  onStack_onStack _

theorem discard_onStack (count : Nat) : Moves OnStack (discard count) :=
  onStack_onStack _

theorem readCvt_onStack (index : Value) : Moves OnStack (readCvt index) := by
  intro env
  unfold readCvt
  split
  · exact .refl env
  · exact .refl env

theorem readStorage_onStack (index : Value) : Moves OnStack (readStorage index) := by
  intro env
  unfold readStorage
  split
  · exact .refl env
  · exact .refl env

theorem writeCvt_alters (index value : Value) : Moves s.Alters (writeCvt index value) := by
  intro env
  cases index with
  | unknown => exact .cvt env.stack (by rw [List.length_map])
  | known index =>
    simp only [writeCvt, Environment.writeCvt]
    cases env.cvtPlace index with
    | ok place => exact .cvt env.stack (by rw [List.length_set])
    | error fault => exact .stack env.stack

theorem lt_of_storagePlace {index : Int32} {place : Nat} (h : storagePlace index = .ok place) :
    place < 0x80000000 := by
  unfold storagePlace at h
  split at h
  · cases h
    have hBound := index.toInt_lt
    omega
  · cases h

theorem writeStorage_alters (index value : Value) :
    Moves s.Alters (writeStorage index value) := by
  intro env
  cases index with
  | unknown =>
    refine .storage env.stack .unknown fun place hPlace => .inl ?_
    rwa [SortedMap.keys_mapValues] at hPlace
  | known index =>
    simp only [writeStorage, Environment.writeStorage]
    cases hIndex : storagePlace index with
    | ok written =>
      refine .storage env.stack env.unwritten fun place hPlace => ?_
      rcases (env.storage.mem_keys_update written place _).mp hPlace with rfl | hOld
      · exact .inr (lt_of_storagePlace hIndex)
      · exact .inl hOld
    | error fault => exact .stack env.stack

theorem setGraphics_alters {change : GraphicsState → GraphicsState}
    (h : ∀ g, s.Sets g (change g)) : Moves s.Alters (setGraphics change) :=
  fun env => .graphics env.stack (h env.graphics)

end EnvAction

namespace Statement

open EnvAction

theorem closed_alters (s : Statement) : s.Closed (Moves s.Alters) where
  done target := alters_of_onStack (pure_onStack target) s
  fail fault _ := alters_of_onStack (throw_onStack fault) s
  pop _ h := bind_alters pop_onStack h
  discard count _ h := bind_alters (discard_onStack count) fun _ => h
  readCvt index _ h := bind_alters (readCvt_onStack index) h
  readStorage index _ h := bind_alters (readStorage_onStack index) h
  graphics _ h := .get_bind fun env => h env.graphics
  stack action _ := effect_alters (alters_of_onStack (onStack_onStack action) s)
  setGraphics _ hSets := effect_alters (setGraphics_alters hSets)
  writeCvt index value := effect_alters (writeCvt_alters index value)
  writeStorage index value := effect_alters (writeStorage_alters index value)

/-- Each statement changes what its rules allow, whether it fails or not. -/
theorem perform_alters (axisCount : Nat) (s : Statement) :
    Moves s.Alters (s.perform axisCount) :=
  perform_of_closed s.closed_alters axisCount

theorem closed_turns (s : Statement) : s.Closed (Turns Environment.stack) where
  done target := (leaves_pure target).turns
  fail fault _ := (leaves_throw fault).turns
  pop _ h := pop_takes.bind_turns h
  discard count _ h := (discard_takes count).bind_turns fun _ => h
  readCvt index _ h := (readCvt_leaves index).takes.bind_turns h
  readStorage index _ h := (readStorage_leaves index).takes.bind_turns h
  graphics _ h := .get_bind fun env => h env.graphics
  stack _ hEnds := effect_turns (onStack_moves hEnds.turns)
  setGraphics change _ := effect_turns (setGraphics_leaves change).turns
  writeCvt index value := effect_turns (writeCvt_leaves index value).turns
  writeStorage index value := effect_turns (writeStorage_leaves index value).turns

/-- A statement takes its operands before it pushes its results. -/
theorem perform_turns (axisCount : Nat) (s : Statement) :
    Turns Environment.stack (s.perform axisCount) :=
  perform_of_closed s.closed_turns axisCount

end Statement

end Hinting
