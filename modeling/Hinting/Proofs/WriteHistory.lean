import Hinting.Proofs.Precision
import Mathlib.Data.List.Induction

/-!
# Reading back what was written

The storage area and the control values are written through indexes, which may be unknown. What
a place holds after any writes is told from their history: the last value written to the place,
or nothing when a write through an unknown index came later, or what it held in the beginning
when neither was ever made. Writes that fail have no part in it, and the two areas are as if
each had been alone.
-/

namespace Hinting

/-- Where a write goes. -/
inductive Area
  | storage
  | cvt
deriving DecidableEq

structure Write where
  area : Area
  index : Value
  value : Value
deriving DecidableEq

namespace Area

/-- The index denotes a place. -/
def Has : Area → Environment → Int32 → Prop
  | .storage, _, index => 0 ≤ index.toInt
  | .cvt, env, index => env.HasCvt index

def held : Area → Environment → Int32 → Value
  | .storage, env, index => env.stored index.toInt.toNat
  | .cvt, env, index => env.cvt[index.toInt.toNat]?.getD .unknown

def read : Area → Environment → Value → Except Fault Value
  | .storage => Environment.readStorage
  | .cvt => Environment.readCvt

def fault : Area → Int32 → Fault
  | .storage => .invalidStorageIndex
  | .cvt => .invalidCvtIndex

/-- Puts a value into one place. -/
def put : Area → Environment → Int32 → Value → Environment
  | .storage, env, index, value =>
    { env with storage := env.storage.insert index.toInt.toNat value }
  | .cvt, env, index, value => { env with cvt := env.cvt.set index.toInt.toNat value }

/-- Forgets what every place holds. -/
def forget : Area → Environment → Environment
  | .storage, env =>
    { env with storage := env.storage.mapValues fun _ => .unknown, unwritten := .unknown }
  | .cvt, env => { env with cvt := env.cvt.map fun _ => .unknown }

/-- The environment that has this area and nothing else. -/
def only : Area → Environment → Environment
  | .storage, env => { storage := env.storage, unwritten := env.unwritten }
  | .cvt, env => { cvt := env.cvt }

variable {area : Area} {env : Environment} {index other : Int32} {value : Value}

theorem read_of_has (h : area.Has env index) :
    area.read env (.known index) = .ok (area.held env index) := by
  cases area with
  | storage => exact env.readStorage_of_nonneg h
  | cvt => exact Environment.readCvt_of_hasCvt h

theorem read_of_not_has (h : ¬area.Has env index) :
    area.read env (.known index) = .error (area.fault index) := by
  cases area with
  | storage => exact env.readStorage_of_neg h
  | cvt => exact Environment.readCvt_of_not_hasCvt h

theorem nonneg_of_has (h : area.Has env index) : 0 ≤ index.toInt := by
  cases area with
  | storage => exact h
  | cvt => exact h.1

theorem held_put_self (h : area.Has env index) :
    area.held (area.put env index value) index = value := by
  cases area with
  | storage => exact (env.stored_insert _ _ value).trans (if_pos rfl)
  | cvt =>
    have hPlace : index.toInt.toNat < env.cvt.length := by
      obtain ⟨hSign, hLess⟩ : env.HasCvt index := h
      omega
    simp only [held, put, List.getElem?_set_self hPlace, Option.getD_some]

theorem held_put_of_ne (h : area.Has env index) (hOther : area.Has env other)
    (hNe : other ≠ index) : area.held (area.put env index value) other = area.held env other := by
  have hPlaces : other.toInt.toNat ≠ index.toInt.toNat := by
    intro hSame
    have hIndex := nonneg_of_has h
    have hOther := nonneg_of_has hOther
    exact hNe (Int32.toInt_inj.mp (by omega))
  cases area with
  | storage => exact (env.stored_insert _ _ value).trans (if_neg hPlaces)
  | cvt => simp only [held, put, List.getElem?_set_ne hPlaces.symm]

theorem held_forget (area : Area) (env : Environment) (index : Int32) :
    area.held (area.forget env) index = .unknown := by
  cases area with
  | storage => exact env.stored_forget _
  | cvt =>
    simp only [held, forget, List.getElem?_map]
    cases env.cvt[index.toInt.toNat]? <;> rfl

theorem held_only (area : Area) (env : Environment) (index : Int32) :
    area.held (area.only env) index = area.held env index := by
  cases area <;> rfl

theorem has_only (area : Area) (env : Environment) (index : Int32) :
    area.Has (area.only env) index ↔ area.Has env index := by
  cases area <;> exact Iff.rfl

theorem only_forget (area : Area) (env : Environment) :
    area.only (area.forget env) = area.forget (area.only env) := by
  cases area <;> rfl

theorem only_put (area : Area) (env : Environment) (index : Int32) (value : Value) :
    area.only (area.put env index value) = area.put (area.only env) index value := by
  cases area <;> rfl

theorem only_forget_of_ne {written : Area} (h : written ≠ area) :
    area.only (written.forget env) = area.only env := by
  cases written <;> cases area <;> simp [only, forget] at h ⊢

theorem only_put_of_ne {written : Area} (h : written ≠ area) :
    area.only (written.put env index value) = area.only env := by
  cases written <;> cases area <;> simp [only, put] at h ⊢

end Area

namespace Write

def action (w : Write) : EnvAction Unit :=
  match w.area with
  | .storage => EnvAction.writeStorage w.index w.value
  | .cvt => EnvAction.writeCvt w.index w.value

/-- The environment that a write leaves, also when it fails. -/
def perform (env : Environment) (w : Write) : Environment :=
  match w.action env with
  | .ok _ after => after
  | .error _ after => after

/-- Is made through the index, if that denotes a place. -/
def Sets (w : Write) (area : Area) (index : Int32) : Prop :=
  w.area = area ∧ w.index = .known index

/-- Is made through an unknown index. -/
def Blurs (w : Write) (area : Area) : Prop :=
  w.area = area ∧ w.index = .unknown

section

variable {w : Write} {area : Area} {env : Environment} {index : Int32}

theorem not_blurs_of_sets (h : w.Sets area index) : ¬w.Blurs area := by
  rintro ⟨_, hUnknown⟩
  rw [h.2] at hUnknown
  cases hUnknown

theorem action_of_unknown (hIndex : w.index = .unknown) :
    w.action env = .ok () (w.area.forget env) := by
  obtain ⟨_ | _, _, value⟩ := w
  all_goals
    cases hIndex
    rfl

theorem action_of_has (hIndex : w.index = .known index) (h : w.area.Has env index) :
    w.action env = .ok () (w.area.put env index w.value) := by
  obtain ⟨_ | _, _, value⟩ := w
  · cases hIndex
    simp only [action, EnvAction.writeStorage, env.writeStorage_of_nonneg h, Area.put]
  · cases hIndex
    simp only [action, EnvAction.writeCvt, Environment.writeCvt_of_hasCvt h, Area.put]

theorem action_of_not_has (hIndex : w.index = .known index) (h : ¬w.area.Has env index) :
    w.action env = .error (w.area.fault index) env := by
  obtain ⟨_ | _, _, value⟩ := w
  · cases hIndex
    simp only [action, EnvAction.writeStorage, env.writeStorage_of_neg h, Area.fault]
  · cases hIndex
    simp only [action, EnvAction.writeCvt, Environment.writeCvt_of_not_hasCvt h, Area.fault]

theorem perform_of_unknown (hIndex : w.index = .unknown) :
    w.perform env = w.area.forget env := by
  rw [perform, action_of_unknown hIndex]

theorem perform_of_has (hIndex : w.index = .known index) (h : w.area.Has env index) :
    w.perform env = w.area.put env index w.value := by
  rw [perform, action_of_has hIndex h]

theorem perform_of_not_has (hIndex : w.index = .known index) (h : ¬w.area.Has env index) :
    w.perform env = env := by
  rw [perform, action_of_not_has hIndex h]

/-- Holds after a write, if it holds after each of the changes that a write can make. -/
theorem of_changes {P : Environment → Prop} (w : Write) {env : Environment} (hFailed : P env)
    (hForget : P (w.area.forget env)) (hPut : ∀ index, P (w.area.put env index w.value)) :
    P (w.perform env) := by
  cases hIndex : w.index with
  | unknown => rwa [perform_of_unknown hIndex]
  | known index =>
    by_cases hHas : w.area.Has env index
    · rw [perform_of_has hIndex hHas]
      exact hPut index
    · rwa [perform_of_not_has hIndex hHas]

theorem length_perform (w : Write) (env : Environment) :
    (w.perform env).cvt.length = env.cvt.length := by
  apply of_changes w (P := fun after => after.cvt.length = env.cvt.length) rfl
  · cases w.area <;> simp [Area.forget]
  · intro index
    cases w.area <;> simp [Area.put]

/-- A write changes nothing but the two areas. -/
theorem perform_eq (w : Write) (env : Environment) :
    w.perform env = { env with
      cvt := (w.perform env).cvt
      storage := (w.perform env).storage
      unwritten := (w.perform env).unwritten } := by
  apply of_changes w (P := fun after => after = { env with
    cvt := after.cvt, storage := after.storage, unwritten := after.unwritten }) rfl
  · cases w.area <;> rfl
  · intro index
    cases w.area <;> rfl

theorem only_perform_of_ne (h : w.area ≠ area) (env : Environment) :
    area.only (w.perform env) = area.only env :=
  of_changes w (P := fun after => area.only after = area.only env) rfl
    (Area.only_forget_of_ne h) fun _ => Area.only_put_of_ne h

/-- What a write does to its area does not depend on the rest of the environment. -/
theorem only_perform (w : Write) (env : Environment) :
    w.area.only (w.perform env) = w.perform (w.area.only env) := by
  cases hIndex : w.index with
  | unknown => rw [perform_of_unknown hIndex, perform_of_unknown hIndex, Area.only_forget]
  | known index =>
    by_cases hHas : w.area.Has env index
    · rw [perform_of_has hIndex hHas, perform_of_has hIndex ((Area.has_only _ _ _).mpr hHas),
        Area.only_put]
    · rw [perform_of_not_has hIndex hHas,
        perform_of_not_has hIndex (mt (Area.has_only _ _ _).mp hHas)]

theorem held_perform_of_sets (hHas : area.Has env index) (h : w.Sets area index) :
    area.held (w.perform env) index = w.value := by
  obtain ⟨rfl, hIndex⟩ := h
  rw [perform_of_has hIndex hHas, Area.held_put_self hHas]

theorem held_perform_of_blurs (h : w.Blurs area) (env : Environment) (index : Int32) :
    area.held (w.perform env) index = .unknown := by
  obtain ⟨rfl, hIndex⟩ := h
  rw [perform_of_unknown hIndex, Area.held_forget]

theorem held_perform_of_spares (hHas : area.Has env index) (hSets : ¬w.Sets area index)
    (hBlurs : ¬w.Blurs area) : area.held (w.perform env) index = area.held env index := by
  by_cases hArea : w.area = area
  · subst hArea
    cases hIndex : w.index with
    | unknown => exact absurd ⟨rfl, hIndex⟩ hBlurs
    | known written =>
      have hNe : index ≠ written := fun hSame => hSets ⟨rfl, hSame ▸ hIndex⟩
      by_cases hWritten : w.area.Has env written
      · rw [perform_of_has hIndex hWritten, Area.held_put_of_ne hWritten hHas hNe]
      · rw [perform_of_not_has hIndex hWritten]
  · rw [← Area.held_only, only_perform_of_ne hArea, Area.held_only]

end

end Write

/-- What the place that an index denotes has come to hold through writes, the first one first. -/
inductive Recalls (area : Area) (index : Int32) (initial : Value) (writes : List Write) :
    Value → Prop
  | written {before after : List Write} {w : Write} : writes = before ++ w :: after →
      w.Sets area index → (∀ later ∈ after, ¬later.Sets area index ∧ ¬later.Blurs area) →
      Recalls area index initial writes w.value
  | lost {before after : List Write} {w : Write} : writes = before ++ w :: after →
      w.Blurs area → (∀ later ∈ after, ¬later.Sets area index) →
      Recalls area index initial writes .unknown
  | untouched : (∀ w ∈ writes, ¬w.Sets area index ∧ ¬w.Blurs area) →
      Recalls area index initial writes initial

namespace Recalls

variable {area : Area} {index : Int32} {initial value : Value} {writes : List Write} {w : Write}

/-- A write of a longer history is its last one, or one of the history before. -/
theorem split_concat {before after : List Write} {x : Write}
    (h : writes ++ [w] = before ++ x :: after) :
    after = [] ∧ x = w ∨ ∃ between, after = between ++ [w] ∧ writes = before ++ x :: between := by
  rcases List.eq_nil_or_concat after with rfl | ⟨between, last, rfl⟩
  · exact .inl ⟨rfl, (List.singleton_inj.mp (List.append_inj_right' h rfl)).symm⟩
  · rw [List.concat_eq_append, ← List.cons_append, ← List.append_assoc] at h
    obtain ⟨hFront, hLast⟩ := List.append_inj' h rfl
    obtain rfl := List.singleton_inj.mp hLast
    exact .inr ⟨between, List.concat_eq_append, hFront⟩

theorem nil_iff : Recalls area index initial [] value ↔ value = initial := by
  constructor
  · rintro (⟨hSplit, _, _⟩ | ⟨hSplit, _, _⟩ | _)
    · simp at hSplit
    · simp at hSplit
    · rfl
  · rintro rfl
    exact .untouched (by simp)

theorem concat_iff_of_sets (h : w.Sets area index) :
    Recalls area index initial (writes ++ [w]) value ↔ value = w.value := by
  constructor
  · rintro (⟨hSplit, _, hLater⟩ | ⟨hSplit, hBlurs, hLater⟩ | hSpared)
    · rcases split_concat hSplit with ⟨_, rfl⟩ | ⟨between, rfl, _⟩
      · rfl
      · exact absurd h (hLater w (by simp)).1
    · rcases split_concat hSplit with ⟨_, rfl⟩ | ⟨between, rfl, _⟩
      · exact absurd hBlurs (Write.not_blurs_of_sets h)
      · exact absurd h (hLater w (by simp))
    · exact absurd h (hSpared w (by simp)).1
  · rintro rfl
    exact .written rfl h (by simp)

theorem concat_iff_of_blurs (h : w.Blurs area) :
    Recalls area index initial (writes ++ [w]) value ↔ value = .unknown := by
  constructor
  · rintro (⟨hSplit, hSets, hLater⟩ | _ | hSpared)
    · rcases split_concat hSplit with ⟨_, rfl⟩ | ⟨between, rfl, _⟩
      · exact absurd h (Write.not_blurs_of_sets hSets)
      · exact absurd h (hLater w (by simp)).2
    · rfl
    · exact absurd h (hSpared w (by simp)).2
  · rintro rfl
    exact .lost rfl h (by simp)

theorem concat_iff_of_spares (hSets : ¬w.Sets area index) (hBlurs : ¬w.Blurs area) :
    Recalls area index initial (writes ++ [w]) value ↔ Recalls area index initial writes value := by
  constructor
  · rintro (⟨hSplit, hHere, hLater⟩ | ⟨hSplit, hHere, hLater⟩ | hSpared)
    · rcases split_concat hSplit with ⟨_, rfl⟩ | ⟨between, rfl, rfl⟩
      · exact absurd hHere hSets
      · exact .written rfl hHere fun later hMem => hLater later (List.mem_append_left _ hMem)
    · rcases split_concat hSplit with ⟨_, rfl⟩ | ⟨between, rfl, rfl⟩
      · exact absurd hHere hBlurs
      · exact .lost rfl hHere fun later hMem => hLater later (List.mem_append_left _ hMem)
    · exact .untouched fun later hMem => hSpared later (List.mem_append_left _ hMem)
  · rintro (⟨rfl, hHere, hLater⟩ | ⟨rfl, hHere, hLater⟩ | hSpared)
    · refine .written (List.append_assoc _ _ _) hHere ?_
      exact List.forall_mem_append.mpr ⟨hLater, by simp [hSets, hBlurs]⟩
    · refine .lost (List.append_assoc _ _ _) hHere ?_
      exact List.forall_mem_append.mpr ⟨hLater, by simp [hSets]⟩
    · exact .untouched (List.forall_mem_append.mpr ⟨hSpared, by simp [hSets, hBlurs]⟩)

end Recalls

namespace Environment

/-- The environment after writes, some of which may have failed. -/
def afterWrites (env : Environment) (writes : List Write) : Environment :=
  writes.foldl Write.perform env

theorem afterWrites_concat (env : Environment) (writes : List Write) (w : Write) :
    env.afterWrites (writes ++ [w]) = w.perform (env.afterWrites writes) :=
  List.foldl_append

theorem length_afterWrites (env : Environment) (writes : List Write) :
    (env.afterWrites writes).cvt.length = env.cvt.length := by
  induction writes using List.reverseRecOn with
  | nil => rfl
  | append_singleton writes w ih => rw [afterWrites_concat, Write.length_perform, ih]

theorem has_afterWrites (area : Area) (env : Environment) (writes : List Write) (index : Int32) :
    area.Has (env.afterWrites writes) index ↔ area.Has env index := by
  cases area with
  | storage => exact Iff.rfl
  | cvt => rw [Area.Has, Area.Has, HasCvt, HasCvt, length_afterWrites]

theorem afterWrites_eq (env : Environment) (writes : List Write) :
    env.afterWrites writes = { env with
      cvt := (env.afterWrites writes).cvt
      storage := (env.afterWrites writes).storage
      unwritten := (env.afterWrites writes).unwritten } := by
  induction writes using List.reverseRecOn with
  | nil => rfl
  | append_singleton writes w ih =>
    rw [afterWrites_concat, Write.perform_eq, ih]

/-- Each area is as if nothing else had been written, or was there. -/
theorem only_afterWrites (area : Area) (env : Environment) (writes : List Write) :
    area.only (env.afterWrites writes) =
      (area.only env).afterWrites (writes.filter (·.area = area)) := by
  induction writes using List.reverseRecOn with
  | nil => rfl
  | append_singleton writes w ih =>
    rw [afterWrites_concat, List.filter_append, List.filter_singleton]
    by_cases hArea : w.area = area
    · subst hArea
      rw [Write.only_perform, ih, decide_eq_true rfl, cond_true, afterWrites_concat]
    · rw [Write.only_perform_of_ne hArea, ih, decide_eq_false hArea, cond_false, List.append_nil]

/-- One place, through every history. -/
theorem recalls_afterWrites_iff {area : Area} {env : Environment} {index : Int32}
    (h : area.Has env index) (writes : List Write) (value : Value) :
    Recalls area index (area.held env index) writes value ↔
      value = area.held (env.afterWrites writes) index := by
  induction writes using List.reverseRecOn with
  | nil => exact Recalls.nil_iff
  | append_singleton writes w ih =>
    have hHas := (has_afterWrites area env writes index).mpr h
    rw [afterWrites_concat]
    by_cases hSets : w.Sets area index
    · rw [Recalls.concat_iff_of_sets hSets, Write.held_perform_of_sets hHas hSets]
    · by_cases hBlurs : w.Blurs area
      · rw [Recalls.concat_iff_of_blurs hBlurs, Write.held_perform_of_blurs hBlurs]
      · rw [Recalls.concat_iff_of_spares hSets hBlurs, ih,
          Write.held_perform_of_spares hHas hSets hBlurs]

theorem read_afterWrites {area : Area} {env : Environment} {index : Int32}
    (h : area.Has env index) (writes : List Write) :
    ∃ value, area.read (env.afterWrites writes) (.known index) = .ok value ∧
      ∀ v, Recalls area index (area.held env index) writes v ↔ v = value :=
  ⟨_, Area.read_of_has ((has_afterWrites area env writes index).mpr h),
    recalls_afterWrites_iff h writes⟩

theorem fails_afterWrites {area : Area} {env : Environment} {index : Int32}
    (h : ¬area.Has env index) (writes : List Write) (value : Value) :
    area.read (env.afterWrites writes) (.known index) = .error (area.fault index) ∧
      Write.action ⟨area, .known index, value⟩ (env.afterWrites writes) =
        .error (area.fault index) (env.afterWrites writes) := by
  have hHas := mt (has_afterWrites area env writes index).mp h
  exact ⟨Area.read_of_not_has hHas, Write.action_of_not_has rfl hHas⟩

theorem hasCvt_initial_iff (functions : FunctionTable) (cvt : List Int32) (index : Int32) :
    (initial functions cvt).HasCvt index ↔ 0 ≤ index.toInt ∧ index.toInt < cvt.length := by
  rw [HasCvt, initial, List.length_map]

/-- What is known of an environment from the writes that were made to it. -/
structure Answers (functions : FunctionTable) (cvt : List Int32) (writes : List Write)
    (env : Environment) : Prop where
  reads_storage (index : Int32) : 0 ≤ index.toInt →
    ∃ value, env.readStorage (.known index) = .ok value ∧
      ∀ v, Recalls .storage index (.known 0) writes v ↔ v = value
  reads_cvt (index word : Int32) : 0 ≤ index.toInt → cvt[index.toInt.toNat]? = some word →
    ∃ value, env.readCvt (.known index) = .ok value ∧
      ∀ v, Recalls .cvt index (.known word) writes v ↔ v = value
  storage_fails (index : Int32) (value : Value) : index.toInt < 0 →
    env.readStorage (.known index) = .error (.invalidStorageIndex index) ∧
      EnvAction.writeStorage (.known index) value env = .error (.invalidStorageIndex index) env
  cvt_fails (index : Int32) (value : Value) : index.toInt < 0 ∨ cvt.length ≤ index.toInt →
    env.readCvt (.known index) = .error (.invalidCvtIndex index) ∧
      EnvAction.writeCvt (.known index) value env = .error (.invalidCvtIndex index) env
  length : env.cvt.length = cvt.length
  alone (area : Area) : area.only env =
    (area.only (initial functions cvt)).afterWrites (writes.filter (·.area = area))
  rest : env = { initial functions cvt with
    cvt := env.cvt, storage := env.storage, unwritten := env.unwritten }

theorem answers_afterWrites (functions : FunctionTable) (cvt : List Int32) (writes : List Write) :
    Answers functions cvt writes ((initial functions cvt).afterWrites writes) where
  reads_storage index hIndex :=
    read_afterWrites (show Area.storage.Has _ index from hIndex) writes
  reads_cvt index word hIndex hWord := by
    have hLength := (List.getElem?_eq_some_iff.mp hWord).1
    have hHas : (initial functions cvt).HasCvt index :=
      (hasCvt_initial_iff functions cvt index).mpr ⟨hIndex, by omega⟩
    have hHeld : Area.cvt.held (initial functions cvt) index = .known word := by
      simp only [Area.held, initial, List.getElem?_map, hWord, Option.map_some, Option.getD_some]
    rw [← hHeld]
    exact read_afterWrites (show Area.cvt.Has _ index from hHas) writes
  storage_fails index value hIndex :=
    fails_afterWrites (show ¬Area.storage.Has _ index from Int.not_le.mpr hIndex) writes value
  cvt_fails index value hIndex := by
    have hHas : ¬(initial functions cvt).HasCvt index := by
      rw [hasCvt_initial_iff]
      omega
    exact fails_afterWrites (show ¬Area.cvt.Has _ index from hHas) writes value
  length := by rw [length_afterWrites, initial, List.length_map]
  alone area := only_afterWrites area _ writes
  rest := afterWrites_eq _ writes

end Environment

end Hinting
