import Hinting.Proofs.StatementShape

/-!
# Instructions respect what is known

Every instruction keeps two environments in order: what it does to the one that knows
less it also does to the one that knows more, or it fails there with a fault that the
unknown value hid.
-/

namespace Hinting

namespace EnvAction

open Hinting.Action

/-- The first action does on an environment that knows more what the second one does. -/
abbrev Refines {α β : Type} (V : α → β → Prop) (x : EnvAction α) (y : EnvAction β) : Prop :=
  Matches Fault.Revealed Environment.Below V x y

theorem onStack_refines {α β : Type} {V : α → β → Prop} {x : StackAction α} {y : StackAction β}
    (h : StackAction.Refines V x y) : Refines V (onStack x) (onStack y) := by
  intro e f hef b f' hOk
  unfold onStack at hOk ⊢
  split at hOk
  · rename_i b' stack hy
    cases hOk
    rcases h e.stack f.stack hef.stack b stack hy with
      ⟨a, stack', hx, hab, hStack⟩ | ⟨fault, stack', hx, hFault⟩
    · rw [hx]
      exact .inl ⟨a, _, rfl, hab, { hef with stack := hStack }⟩
    · rw [hx]
      exact .inr ⟨fault, _, rfl, hFault⟩
  · cases hOk

theorem pop_refines : Refines Value.Below pop pop :=
  onStack_refines StackAction.pop_refines

theorem discard_refines (count : Nat) : Refines Eq (discard count) (discard count) :=
  onStack_refines (StackAction.discard_refines count)

theorem setGraphics_refines {f g : GraphicsState → GraphicsState}
    (h : ∀ s t, s.Below t → (f s).Below (g t)) : Refines Eq (setGraphics f) (setGraphics g) :=
  .modify fun e f hef => { hef with graphics := h e.graphics f.graphics hef.graphics }

theorem readCvt_refines {a b : Value} (hab : a.Below b) :
    Refines Value.Below (readCvt a) (readCvt b) := by
  intro e f hef c f' hOk
  cases a with
  | unknown =>
    obtain rfl := (Value.unknown_below_iff b).mp hab
    cases hOk
    exact .inl ⟨.unknown, e, rfl, .refl _, hef⟩
  | known index =>
    unfold readCvt at hOk ⊢
    by_cases hIndex : e.HasCvt index
    · rw [Environment.readCvt_of_hasCvt hIndex]
      refine .inl ⟨_, e, rfl, ?_⟩
      rcases hab with rfl | rfl
      · cases hOk
        exact ⟨Value.below_unknown _, hef⟩
      · have hOther := (Environment.hasCvt_of_below hef index).mp hIndex
        rw [Environment.readCvt_of_hasCvt hOther] at hOk
        cases hOk
        exact ⟨Environment.cvt_below hef _, hef⟩
    · rw [Environment.readCvt_of_not_hasCvt hIndex]
      exact .inr ⟨_, e, rfl, .invalidCvtIndex index⟩

theorem writeCvt_refines {a b v w : Value} (hab : a.Below b) (hvw : v.Below w) :
    Refines Eq (writeCvt a v) (writeCvt b w) := by
  intro e f hef c f' hOk
  have hForget : List.Forall₂ Value.Below (e.cvt.map fun _ => .unknown)
      (f.cvt.map fun _ => .unknown) :=
    ValueStack.forall₂_unknown (by simpa using hef.cvt.length_eq)
  cases a with
  | unknown =>
    obtain rfl := (Value.unknown_below_iff b).mp hab
    cases hOk
    exact .inl ⟨(), _, rfl, rfl, { hef with cvt := hForget }⟩
  | known index =>
    unfold writeCvt at hOk ⊢
    by_cases hIndex : e.HasCvt index
    · rw [Environment.writeCvt_of_hasCvt hIndex]
      refine .inl ⟨(), _, rfl, rfl, ?_⟩
      rcases hab with rfl | rfl
      · cases hOk
        refine { hef with cvt := ValueStack.forall₂_unknown ?_ }
        simpa using hef.cvt.length_eq
      · have hOther := (Environment.hasCvt_of_below hef index).mp hIndex
        rw [Environment.writeCvt_of_hasCvt hOther] at hOk
        cases hOk
        exact { hef with cvt := Environment.forall₂_set hef.cvt _ hvw }
    · rw [Environment.writeCvt_of_not_hasCvt hIndex]
      exact .inr ⟨_, e, rfl, .invalidCvtIndex index⟩

theorem readStorage_refines {a b : Value} (hab : a.Below b) :
    Refines Value.Below (readStorage a) (readStorage b) := by
  intro e f hef c f' hOk
  cases a with
  | unknown =>
    obtain rfl := (Value.unknown_below_iff b).mp hab
    cases hOk
    exact .inl ⟨.unknown, e, rfl, .refl _, hef⟩
  | known index =>
    unfold readStorage at hOk ⊢
    by_cases hIndex : 0 ≤ index.toInt
    · rw [Environment.readStorage_of_nonneg _ hIndex]
      refine .inl ⟨_, e, rfl, ?_⟩
      rcases hab with rfl | rfl
      · cases hOk
        exact ⟨Value.below_unknown _, hef⟩
      · rw [Environment.readStorage_of_nonneg _ hIndex] at hOk
        cases hOk
        exact ⟨(Environment.storage_below_iff e f).mp hef.storage index hIndex, hef⟩
    · rw [Environment.readStorage_of_neg _ hIndex]
      exact .inr ⟨_, e, rfl, .invalidStorageIndex index⟩

theorem writeStorage_refines {a b v w : Value} (hab : a.Below b) (hvw : v.Below w) :
    Refines Eq (writeStorage a v) (writeStorage b w) := by
  intro e f hef c f' hOk
  cases a with
  | unknown =>
    obtain rfl := (Value.unknown_below_iff b).mp hab
    cases hOk
    refine .inl ⟨(), _, rfl, rfl,
      { hef with storage := (Environment.storage_below_iff _ _).mpr ?_ }⟩
    intro index _
    rw [Environment.stored_forget, Environment.stored_forget]
  | known index =>
    unfold writeStorage at hOk ⊢
    by_cases hIndex : 0 ≤ index.toInt
    · rw [Environment.writeStorage_of_nonneg _ hIndex]
      refine .inl ⟨(), _, rfl, rfl, ?_⟩
      rcases hab with rfl | rfl
      · cases hOk
        refine { hef with storage := (Environment.storage_below_iff _ _).mpr fun other _ => ?_ }
        rw [Environment.stored_forget]
        exact Value.below_unknown _
      · rw [Environment.writeStorage_of_nonneg _ hIndex] at hOk
        cases hOk
        refine { hef with
          storage := (Environment.storage_below_iff _ _).mpr fun other hOther => ?_ }
        rw [Environment.stored_insert, Environment.stored_insert]
        split
        · exact hvw
        · exact (Environment.storage_below_iff e f).mp hef.storage other hOther
    · rw [Environment.writeStorage_of_neg _ hIndex]
      exact .inr ⟨_, e, rfl, .invalidStorageIndex index⟩

end EnvAction

namespace Statement

open EnvAction Hinting.Action

theorem effect_refines {x y : EnvAction Unit} (h : Refines Eq x y) :
    Refines Eq (perform.effect x) (perform.effect y) :=
  h.bind fun _ _ _ => .pure rfl

theorem Parallel.refines {s : Statement} {x y : EnvAction (Option Label)} (h : s.Parallel x y) :
    Refines Eq x y := by
  induction h with
  | done target => exact .pure rfl
  | fail _ => exact .throw_right _ _
  | failFirst _ hRevealed _ _ => exact .throw_left hRevealed _
  | failSecond _ _ _ => exact .throw_right _ _
  | pop _ ih => exact pop_refines.bind ih
  | discard count _ ih => exact (discard_refines count).bind fun _ _ _ => ih
  | readCvt hIndex _ ih => exact (readCvt_refines hIndex).bind ih
  | readStorage hIndex _ ih => exact (readStorage_refines hIndex).bind ih
  | graphics _ ih => exact .get_bind fun e f hef => ih e.graphics f.graphics hef.graphics
  | stack hRefines _ _ => exact effect_refines (onStack_refines hRefines)
  | setGraphics hBelow _ _ => exact effect_refines (setGraphics_refines hBelow)
  | writeCvt hIndex hValue => exact effect_refines (writeCvt_refines hIndex hValue)
  | writeStorage hIndex hValue => exact effect_refines (writeStorage_refines hIndex hValue)

theorem perform_refines (axisCount : Nat) (s : Statement) :
    Refines Eq (s.perform axisCount) (s.perform axisCount) :=
  (s.perform_parallel axisCount).refines

end Statement

end Hinting
