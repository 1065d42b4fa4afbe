import Hinting.Proofs.Action
import Hinting.Proofs.Lookup
import Hinting.Semantics.Dispatch
import Mathlib.Data.List.Forall2

/-!
# How much environments know

A value is below another when that one says no more: it is unknown, or the two are the
same. The order is carried over to axes, stacks, graphics states and environments.

The operations on stacks respect the order. When one succeeds on the stack that knows
less, it also does on the one that knows more and keeps the two in order, unless a
known value brings to light a fault that an unknown one hides.
-/

namespace Hinting

def Value.Below (a b : Value) : Prop :=
  b = .unknown ∨ a = b

def Axis.Below (a b : Axis) : Prop :=
  b = .custom ∨ a = b

structure ValueStack.Below (s t : ValueStack) : Prop where
  values : List.Forall₂ Value.Below s.values t.values
  peak : s.peak = t.peak

structure GraphicsState.Below (g h : GraphicsState) : Prop where
  projection : g.projection.Below h.projection
  dualProjection : g.dualProjection.Below h.dualProjection
  freedom : g.freedom.Below h.freedom
  roundMode : g.rounding.mode = h.rounding.mode
  roundSelector : g.rounding.selector.Below h.rounding.selector
  rp0 : g.rp0.Below h.rp0
  rp1 : g.rp1.Below h.rp1
  rp2 : g.rp2.Below h.rp2
  zp0 : g.zp0.Below h.zp0
  zp1 : g.zp1.Below h.zp1
  zp2 : g.zp2.Below h.zp2
  loopCounter : g.loopCounter.Below h.loopCounter
  minDistance : g.minDistance.Below h.minDistance
  controlValueCutIn : g.controlValueCutIn.Below h.controlValueCutIn
  singleWidthCutIn : g.singleWidthCutIn.Below h.singleWidthCutIn
  singleWidth : g.singleWidth.Below h.singleWidth
  deltaBase : g.deltaBase.Below h.deltaBase
  deltaShift : g.deltaShift.Below h.deltaShift
  autoFlip : g.autoFlip = h.autoFlip
  instructControl : g.instructControl.Below h.instructControl
  scanControl : g.scanControl.Below h.scanControl
  scanType : g.scanType.Below h.scanType

/-- The storage areas are compared by what can be read from them. -/
structure Environment.Below (e f : Environment) : Prop where
  stack : e.stack.Below f.stack
  graphics : e.graphics.Below f.graphics
  cvt : List.Forall₂ Value.Below e.cvt f.cvt
  storage : ∀ index a b, e.readStorage (.known index) = .ok a →
    f.readStorage (.known index) = .ok b → a.Below b
  functions : e.functions = f.functions

@[refl]
theorem GraphicsState.Below.refl (g : GraphicsState) : g.Below g where
  projection := .inr rfl
  dualProjection := .inr rfl
  freedom := .inr rfl
  roundMode := rfl
  roundSelector := .inr rfl
  rp0 := .inr rfl
  rp1 := .inr rfl
  rp2 := .inr rfl
  zp0 := .inr rfl
  zp1 := .inr rfl
  zp2 := .inr rfl
  loopCounter := .inr rfl
  minDistance := .inr rfl
  controlValueCutIn := .inr rfl
  singleWidthCutIn := .inr rfl
  singleWidth := .inr rfl
  deltaBase := .inr rfl
  deltaShift := .inr rfl
  autoFlip := rfl
  instructControl := .inr rfl
  scanControl := .inr rfl
  scanType := .inr rfl

/-- The faults that a known value can bring to light where an unknown one hides them. -/
inductive Fault.Revealed : Fault → Prop
  | stackUnderflow : Revealed .stackUnderflow
  | invalidCvtIndex (index : Int32) : Revealed (.invalidCvtIndex index)
  | invalidStorageIndex (index : Int32) : Revealed (.invalidStorageIndex index)
  | invalidZoneIndex (index : Int32) : Revealed (.invalidZoneIndex index)
  | negativeLoopCounter : Revealed .negativeLoopCounter

namespace Value

@[refl]
theorem Below.refl (a : Value) : a.Below a :=
  .inr rfl

theorem below_unknown (a : Value) : a.Below .unknown :=
  .inl rfl

theorem below_known_iff (a : Value) (word : Int32) : a.Below (.known word) ↔ a = .known word := by
  simp [Below]

theorem unknown_below_iff (b : Value) : Value.unknown.Below b ↔ b = .unknown := by
  simp [Below, eq_comm]

theorem Below.map {a b : Value} (h : a.Below b) (f : Int32 → Int32) :
    (a.map f).Below (b.map f) := by
  rcases h with rfl | rfl
  · exact below_unknown _
  · exact .refl _

theorem Below.zipWith {a b c d : Value} (hab : a.Below b) (hcd : c.Below d)
    (f : Int32 → Int32 → Option Int32) : (zipWith f a c).Below (zipWith f b d) := by
  cases b with
  | unknown => exact .inl (by simp [Value.zipWith])
  | known word =>
    cases d with
    | unknown => exact .inl (by simp [Value.zipWith])
    | known word' =>
      rw [(below_known_iff a word).mp hab, (below_known_iff c word').mp hcd]

theorem Below.conjunction {a b c d : Value} (hab : a.Below b) (hcd : c.Below d) :
    (a.conjunction c).Below (b.conjunction d) := by
  unfold Value.conjunction
  by_cases hZero : b = .known 0 ∨ d = .known 0
  · have hZero' : a = .known 0 ∨ c = .known 0 := by
      rcases hZero with rfl | rfl
      · exact .inl ((below_known_iff a 0).mp hab)
      · exact .inr ((below_known_iff c 0).mp hcd)
    rw [if_pos hZero, if_pos hZero']
  · rw [if_neg hZero]
    cases b with
    | unknown => exact .inl (by simp [Value.zipWith])
    | known word =>
      cases d with
      | unknown => exact .inl (by simp [Value.zipWith])
      | known word' =>
        rw [(below_known_iff a word).mp hab, (below_known_iff c word').mp hcd, if_neg hZero]

theorem isTrue_of_below {a b : Value} (h : a.Below b) (hb : b.isTrue = true) : a.isTrue = true := by
  cases b with
  | unknown => cases hb
  | known word => rwa [(below_known_iff a word).mp h]

theorem Below.disjunction {a b c d : Value} (hab : a.Below b) (hcd : c.Below d) :
    (a.disjunction c).Below (b.disjunction d) := by
  unfold Value.disjunction
  by_cases hTrue : b.isTrue = true ∨ d.isTrue = true
  · have hTrue' : a.isTrue = true ∨ c.isTrue = true :=
      hTrue.imp (isTrue_of_below hab) (isTrue_of_below hcd)
    rw [if_pos hTrue, if_pos hTrue']
  · rw [if_neg hTrue]
    cases b with
    | unknown => exact .inl (by simp [Value.zipWith])
    | known word =>
      cases d with
      | unknown => exact .inl (by simp [Value.zipWith])
      | known word' =>
        rw [(below_known_iff a word).mp hab, (below_known_iff c word').mp hcd, if_neg hTrue]

theorem Below.roundsTo {a b : Value} (h : a.Below b) {r q : Rounding} (hMode : r.mode = q.mode)
    (residue : Int) : (roundsTo r residue a).Below (roundsTo q residue b) := by
  have hRound (distance : Int32) : r.round distance = q.round distance := by
    simp only [Rounding.round, hMode]
  rcases h with rfl | rfl
  · exact below_unknown _
  · cases a with
    | unknown => exact .refl _
    | known distance =>
      simp only [Value.roundsTo, hRound]
      exact .refl _

end Value

namespace Axis

theorem Below.components {a b : Axis} (h : a.Below b) :
    a.components.1.Below b.components.1 ∧ a.components.2.Below b.components.2 := by
  rcases h with rfl | rfl
  · exact ⟨Value.below_unknown _, Value.below_unknown _⟩
  · exact ⟨.refl _, .refl _⟩

theorem below_ofComponents {x y x' y' : Value} (hx : x.Below x') (hy : y.Below y') :
    (ofComponents x y).Below (ofComponents x' y') := by
  cases x' with
  | unknown => exact .inl (by simp [ofComponents])
  | known word =>
    cases y' with
    | unknown => exact .inl (by simp [ofComponents])
    | known word' =>
      rw [(Value.below_known_iff x word).mp hx, (Value.below_known_iff y word').mp hy]
      exact .inr rfl

end Axis

namespace ValueStack

theorem Below.depth {s t : ValueStack} (h : s.Below t) : s.depth = t.depth :=
  h.values.length_eq

theorem Below.pushAll {s t : ValueStack} (h : s.Below t) {as bs : List Value}
    (hValues : List.Forall₂ Value.Below as bs) : (s.pushAll as).Below (t.pushAll bs) := by
  have hAll := List.rel_append hValues h.values
  refine ⟨hAll, ?_⟩
  change max s.peak _ = max t.peak _
  rw [h.peak, hAll.length_eq]

theorem Below.push {s t : ValueStack} (h : s.Below t) {a b : Value} (hValue : a.Below b) :
    (s.push a).Below (t.push b) :=
  h.pushAll (.cons hValue .nil)

theorem forall₂_unknown {as bs : List Value} (h : as.length = bs.length) :
    List.Forall₂ Value.Below as (bs.map fun _ => .unknown) := by
  induction as generalizing bs with
  | nil =>
    cases bs with
    | nil => exact .nil
    | cons b bs => cases h
  | cons a as ih =>
    cases bs with
    | nil => cases h
    | cons b bs => exact .cons (Value.below_unknown a) (ih (by simpa using h))

end ValueStack

namespace StackAction

open Hinting.Action

/-- The first action does on a stack that knows more what the second one does. -/
abbrev Refines {α β : Type} (V : α → β → Prop) (x : StackAction α) (y : StackAction β) : Prop :=
  Matches Fault.Revealed ValueStack.Below V x y

theorem pop_refines : Refines Value.Below pop pop := by
  intro s t h b t' hOk
  obtain ⟨values, peak⟩ := s
  obtain ⟨values', peak'⟩ := t
  obtain ⟨hValues, hPeak⟩ := h
  cases hValues with
  | nil => cases hOk
  | cons hab hRest =>
    cases hOk
    exact .inl ⟨_, _, rfl, hab, hRest, hPeak⟩

theorem push_refines {a b : Value} (h : a.Below b) : Refines Eq (push a) (push b) :=
  .modify fun _ _ hst => hst.push h

theorem discard_refines (count : Nat) : Refines Eq (discard count) (discard count) := by
  intro s t h b t' hOk
  unfold discard at hOk ⊢
  rw [← h.depth] at hOk
  split at hOk
  · cases hOk
    rename_i hCount
    rw [if_pos hCount]
    exact .inl ⟨(), _, rfl, rfl, List.forall₂_drop count h.values, h.peak⟩
  · cases hOk

theorem unary_refines {f g : Value → Value} (h : ∀ a b, a.Below b → (f a).Below (g b)) :
    Refines Eq (unary f) (unary g) :=
  pop_refines.bind fun a b hab => push_refines (h a b hab)

theorem binary_refines {f g : Value → Value → Value}
    (h : ∀ a b c d, a.Below b → c.Below d → (f a c).Below (g b d)) :
    Refines Eq (binary f) (binary g) :=
  pop_refines.bind fun c d hcd => pop_refines.bind fun a b hab => push_refines (h a b c d hab hcd)

theorem dup_refines : Refines Eq dup dup := by
  intro s t h b t' hOk
  obtain ⟨values, peak⟩ := s
  obtain ⟨values', peak'⟩ := t
  obtain ⟨hValues, hPeak⟩ := h
  cases hValues with
  | nil => cases hOk
  | cons hab hRest =>
    cases hOk
    exact .inl ⟨(), _, rfl, rfl, ValueStack.Below.push ⟨.cons hab hRest, hPeak⟩ hab⟩

theorem swap_refines : Refines Eq swap swap :=
  pop_refines.bind fun _ _ ha => pop_refines.bind fun _ _ hb =>
    (push_refines ha).bind fun _ _ _ => push_refines hb

theorem roll_refines : Refines Eq roll roll :=
  pop_refines.bind fun _ _ ha => pop_refines.bind fun _ _ hb => pop_refines.bind fun _ _ hc =>
    (push_refines hb).bind fun _ _ _ => (push_refines ha).bind fun _ _ _ => push_refines hc

theorem place?_of_below {s t : ValueStack} (h : s.Below t) (index : Int32) :
    place? s index = place? t index := by
  rw [place?, place?, h.depth]

theorem place?_lt {s : ValueStack} {index : Int32} {place : Nat} (h : place? s index = some place) :
    place < s.values.length := by
  simp only [place?] at h
  split at h
  · rename_i hRange
    cases h
    change _ < s.depth
    omega
  · cases h

theorem copyFrom_refines (index : Int32) : Refines Eq (copyFrom index) (copyFrom index) := by
  intro s t h b t' hOk
  unfold copyFrom at hOk ⊢
  rw [place?_of_below h]
  cases hPlace : place? t index with
  | none => rw [hPlace] at hOk; cases hOk
  | some place =>
    have hLess := place?_lt hPlace
    have hLess' : place < s.values.length := h.values.length_eq ▸ hLess
    rw [hPlace, Option.bind_some, List.getElem?_eq_getElem hLess] at hOk
    cases hOk
    rw [Option.bind_some, List.getElem?_eq_getElem hLess']
    exact .inl ⟨(), _, rfl, rfl, h.push (h.values.get hLess' hLess)⟩

theorem copyFrom_refines_unknown (index : Int32) :
    Refines Eq (copyFrom index) (push .unknown) := by
  intro s t h b t' hOk
  cases hOk
  unfold copyFrom
  cases (place? s index).bind fun place => s.values[place]? with
  -- an index out of range, which the unknown one hid
  | none => exact .inr ⟨_, s, rfl, .stackUnderflow⟩
  | some value => exact .inl ⟨(), _, rfl, rfl, h.push (Value.below_unknown value)⟩

theorem copyIndex_refines : Refines Eq copyIndex copyIndex := by
  refine pop_refines.bind fun a b hab => ?_
  cases b with
  | known index =>
    rw [(Value.below_known_iff a index).mp hab]
    exact copyFrom_refines index
  | unknown =>
    cases a with
    | known index => exact copyFrom_refines_unknown index
    | unknown => exact push_refines (.refl _)

theorem moveFrom_refines (index : Int32) : Refines Eq (moveFrom index) (moveFrom index) := by
  intro s t h b t' hOk
  unfold moveFrom at hOk ⊢
  rw [place?_of_below h]
  cases hPlace : place? t index with
  | none => rw [hPlace] at hOk; cases hOk
  | some place =>
    have hLess := place?_lt hPlace
    have hLess' : place < s.values.length := h.values.length_eq ▸ hLess
    rw [hPlace] at hOk
    cases hOk
    refine .inl ⟨(), _, rfl, rfl, ?_, h.peak⟩
    rw [List.getElem?_eq_getElem hLess, List.getElem?_eq_getElem hLess',
      List.eraseIdx_eq_take_drop_succ, List.eraseIdx_eq_take_drop_succ]
    exact .cons (h.values.get hLess' hLess) (List.rel_append (List.forall₂_take place h.values)
      (List.forall₂_drop (place + 1) h.values))

theorem moveFrom_refines_forget (index : Int32) : Refines Eq (moveFrom index) forget := by
  intro s t h b t' hOk
  unfold forget at hOk
  split at hOk
  · cases hOk
  · cases hOk
    unfold moveFrom
    cases hPlace : place? s index with
    | none => exact .inr ⟨_, s, rfl, .stackUnderflow⟩
    | some place =>
      have hLess := place?_lt hPlace
      refine .inl ⟨(), _, rfl, rfl, ValueStack.forall₂_unknown ?_, h.peak⟩
      rw [← h.values.length_eq, List.getElem?_eq_getElem hLess, Option.toList_some,
        List.length_append, List.length_eraseIdx_of_lt hLess, List.length_singleton]
      omega

theorem forget_refines : Refines Eq forget forget := by
  intro s t h b t' hOk
  obtain ⟨values, peak⟩ := s
  obtain ⟨values', peak'⟩ := t
  obtain ⟨hValues, hPeak⟩ := h
  cases hValues with
  | nil => cases hOk
  | cons hab hRest =>
    cases hOk
    refine .inl ⟨(), _, rfl, rfl, ValueStack.forall₂_unknown ?_, hPeak⟩
    simpa using hRest.length_eq

theorem moveIndex_refines : Refines Eq moveIndex moveIndex := by
  refine pop_refines.bind fun a b hab => ?_
  cases b with
  | known index =>
    rw [(Value.below_known_iff a index).mp hab]
    exact moveFrom_refines index
  | unknown =>
    cases a with
    | known index => exact moveFrom_refines_forget index
    | unknown => exact forget_refines

end StackAction

namespace Environment

/-- Whether an index denotes a control value. -/
def HasCvt (env : Environment) (index : Int32) : Prop :=
  0 ≤ index.toInt ∧ index.toInt < env.cvt.length

theorem cvtPlace_of_hasCvt {env : Environment} {index : Int32} (h : env.HasCvt index) :
    env.cvtPlace index = .ok index.toInt.toNat :=
  if_pos h

theorem cvtPlace_of_not_hasCvt {env : Environment} {index : Int32} (h : ¬env.HasCvt index) :
    env.cvtPlace index = .error (.invalidCvtIndex index) :=
  if_neg h

theorem readCvt_of_hasCvt {env : Environment} {index : Int32} (h : env.HasCvt index) :
    env.readCvt (.known index) = .ok (env.cvt[index.toInt.toNat]?.getD .unknown) := by
  rw [readCvt, cvtPlace_of_hasCvt h]
  rfl

theorem readCvt_of_not_hasCvt {env : Environment} {index : Int32} (h : ¬env.HasCvt index) :
    env.readCvt (.known index) = .error (.invalidCvtIndex index) := by
  rw [readCvt, cvtPlace_of_not_hasCvt h]
  rfl

theorem writeCvt_of_hasCvt {env : Environment} {index : Int32} (h : env.HasCvt index)
    (value : Value) :
    env.writeCvt (.known index) value =
      .ok { env with cvt := env.cvt.set index.toInt.toNat value } := by
  rw [writeCvt, cvtPlace_of_hasCvt h]
  rfl

theorem writeCvt_of_not_hasCvt {env : Environment} {index : Int32} (h : ¬env.HasCvt index)
    (value : Value) : env.writeCvt (.known index) value = .error (.invalidCvtIndex index) := by
  rw [writeCvt, cvtPlace_of_not_hasCvt h]
  rfl

theorem hasCvt_of_below {e f : Environment} (h : e.Below f) (index : Int32) :
    e.HasCvt index ↔ f.HasCvt index := by
  rw [HasCvt, HasCvt, h.cvt.length_eq]

theorem cvt_below {e f : Environment} (h : e.Below f) (place : Nat) :
    (e.cvt[place]?.getD .unknown).Below (f.cvt[place]?.getD .unknown) := by
  by_cases hPlace : place < f.cvt.length
  · have hPlace' : place < e.cvt.length := h.cvt.length_eq ▸ hPlace
    rw [List.getElem?_eq_getElem hPlace, List.getElem?_eq_getElem hPlace']
    exact h.cvt.get hPlace' hPlace
  · rw [List.getElem?_eq_none (Nat.not_lt.mp hPlace)]
    exact Value.below_unknown _

theorem forall₂_set {as bs : List Value} (h : List.Forall₂ Value.Below as bs) (place : Nat)
    {a b : Value} (hab : a.Below b) :
    List.Forall₂ Value.Below (as.set place a) (bs.set place b) := by
  induction h generalizing place with
  | nil => exact .nil
  | cons hHead hTail ih =>
    cases place with
    | zero => exact .cons hab hTail
    | succ place => exact .cons hHead (ih place)

/-- What a storage location holds. -/
def stored (env : Environment) (place : Nat) : Value :=
  (env.storage.get? place).getD env.unwritten

theorem readStorage_of_nonneg (env : Environment) {index : Int32} (h : 0 ≤ index.toInt) :
    env.readStorage (.known index) = .ok (env.stored index.toInt.toNat) := by
  rw [readStorage, storagePlace, if_pos h]
  rfl

theorem readStorage_of_neg (env : Environment) {index : Int32} (h : ¬0 ≤ index.toInt) :
    env.readStorage (.known index) = .error (.invalidStorageIndex index) := by
  rw [readStorage, storagePlace, if_neg h]
  rfl

theorem writeStorage_of_nonneg (env : Environment) {index : Int32} (h : 0 ≤ index.toInt)
    (value : Value) :
    env.writeStorage (.known index) value =
      .ok { env with storage := env.storage.insert index.toInt.toNat value } := by
  rw [writeStorage, storagePlace, if_pos h]
  rfl

theorem writeStorage_of_neg (env : Environment) {index : Int32} (h : ¬0 ≤ index.toInt)
    (value : Value) :
    env.writeStorage (.known index) value = .error (.invalidStorageIndex index) := by
  rw [writeStorage, storagePlace, if_neg h]
  rfl

theorem storage_below_iff (e f : Environment) :
    (∀ index a b, e.readStorage (.known index) = .ok a → f.readStorage (.known index) = .ok b →
      a.Below b) ↔
    ∀ index : Int32, 0 ≤ index.toInt →
      (e.stored index.toInt.toNat).Below (f.stored index.toInt.toNat) := by
  constructor
  · intro h index hIndex
    exact h index _ _ (e.readStorage_of_nonneg hIndex) (f.readStorage_of_nonneg hIndex)
  · intro h index a b ha hb
    by_cases hIndex : 0 ≤ index.toInt
    · rw [readStorage_of_nonneg _ hIndex] at ha hb
      cases ha
      cases hb
      exact h index hIndex
    · rw [readStorage_of_neg _ hIndex] at ha
      cases ha

theorem stored_insert (env : Environment) (place other : Nat) (value : Value) :
    stored { env with storage := env.storage.insert place value } other =
      if other = place then value else env.stored other := by
  unfold stored
  by_cases hPlace : other = place
  · subst hPlace
    simp
  · simp [SortedMap.get?_insert_of_ne _ hPlace, hPlace]

theorem stored_forget (env : Environment) (place : Nat) :
    stored { env with storage := env.storage.mapValues fun _ => .unknown, unwritten := .unknown }
      place = .unknown := by
  simp only [stored, SortedMap.get?_mapValues]
  cases env.storage.get? place <;> rfl

end Environment

end Hinting
