/-!
# Actions that keep a state when they fail

Statements about `EStateM` actions in four forms: what every success preserves, which
errors an action can fail with, changes of the state that it does not notice, and pairs
of actions of which one succeeds whenever the other does, unless it meets an allowed
error.

Each form comes with its rule for sequencing, so that a longer action is treated by
treating its parts.
-/

namespace Hinting.Action

variable {ε δ σ τ α β γ η : Type}

theorem bind_apply (x : EStateM ε σ α) (f : α → EStateM ε σ β) (s : σ) :
    (x >>= f) s = match x s with
      | .ok a t => f a t
      | .error e t => .error e t :=
  rfl

theorem bind_eq_ok {x : EStateM ε σ α} {f : α → EStateM ε σ β} {s t : σ} {b : β}
    (h : (x >>= f) s = .ok b t) : ∃ a u, x s = .ok a u ∧ f a u = .ok b t := by
  rw [bind_apply] at h
  cases hx : x s with
  | ok a u => exact ⟨a, u, rfl, by rwa [hx] at h⟩
  | error e u => rw [hx] at h; cases h

theorem bind_eq_error {x : EStateM ε σ α} {f : α → EStateM ε σ β} {s t : σ} {e : ε}
    (h : (x >>= f) s = .error e t) :
    x s = .error e t ∨ ∃ a u, x s = .ok a u ∧ f a u = .error e t := by
  rw [bind_apply] at h
  cases hx : x s with
  | ok a u => exact .inr ⟨a, u, rfl, by rwa [hx] at h⟩
  | error e' u =>
    rw [hx] at h
    cases h
    exact .inl rfl

theorem bind_of_ok {x : EStateM ε σ α} {s t : σ} {a : α} (h : x s = .ok a t)
    (f : α → EStateM ε σ β) : (x >>= f) s = f a t := by
  rw [bind_apply, h]

theorem bind_of_error {x : EStateM ε σ α} {s t : σ} {e : ε} (h : x s = .error e t)
    (f : α → EStateM ε σ β) : (x >>= f) s = .error e t := by
  rw [bind_apply, h]

theorem get_bind_apply (f : σ → EStateM ε σ α) (s : σ) : (get >>= f) s = f s s :=
  rfl

theorem except_bind_eq_ok_iff {x : Except ε α} {f : α → Except ε β} {b : β} :
    x >>= f = .ok b ↔ ∃ a, x = .ok a ∧ f a = .ok b := by
  cases x with
  | error e =>
    constructor
    · intro h
      cases h
    · rintro ⟨a, h, _⟩
      cases h
  | ok a =>
    constructor
    · exact fun h => ⟨a, rfl, h⟩
    · rintro ⟨_, h, hf⟩
      cases h
      exact hf

theorem except_mapError_eq_ok_iff {x : Except ε α} {f : ε → δ} {a : α} :
    x.mapError f = .ok a ↔ x = .ok a := by
  cases x with
  | error e =>
    constructor
    · intro h
      cases h
    · intro h
      cases h
  | ok b =>
    constructor
    · intro h
      cases h
      rfl
    · intro h
      cases h
      rfl

theorem foldlM_cons_eq_ok_iff {f : σ → α → Except ε σ} {a : α} {rest : List α} {s t : σ} :
    (a :: rest).foldlM f s = .ok t ↔ ∃ u, f s a = .ok u ∧ rest.foldlM f u = .ok t := by
  rw [List.foldlM_cons, except_bind_eq_ok_iff]

theorem foldlM_append_eq_ok_iff {f : σ → α → Except ε σ} {front back : List α} {s t : σ} :
    (front ++ back).foldlM f s = .ok t ↔
      ∃ u, front.foldlM f s = .ok u ∧ back.foldlM f u = .ok t := by
  rw [List.foldlM_append, except_bind_eq_ok_iff]

theorem exists_of_foldlM_eq_error {f : σ → α → Except ε σ} {list : List α} {s : σ} {e : ε}
    (h : list.foldlM f s = .error e) : ∃ front a back t,
      list = front ++ a :: back ∧ front.foldlM f s = .ok t ∧ f t a = .error e := by
  induction list generalizing s with
  | nil => cases h
  | cons a rest ih =>
    rw [List.foldlM_cons] at h
    cases hFirst : f s a with
    | error e' =>
      rw [hFirst] at h
      cases h
      exact ⟨[], a, rest, s, rfl, rfl, hFirst⟩
    | ok u =>
      rw [hFirst] at h
      obtain ⟨front, b, back, t, rfl, hFront, hError⟩ := ih h
      exact ⟨a :: front, b, back, t, rfl, foldlM_cons_eq_ok_iff.mpr ⟨u, hFirst, hFront⟩, hError⟩

theorem eq_ok_of_toOption {x : Except ε α} {a : α} (h : x.toOption = some a) : x = .ok a := by
  cases x with
  | error e => cases h
  | ok b => cases h; rfl

/-- Every success of the action preserves the property. -/
def Preserves (P : σ → Prop) (x : EStateM ε σ α) : Prop :=
  ∀ s a t, P s → x s = .ok a t → P t

theorem Preserves.pure (P : σ → Prop) (a : α) : Preserves P (pure a : EStateM ε σ α) := by
  intro s b t hs h
  cases h
  exact hs

theorem Preserves.bind {P : σ → Prop} {x : EStateM ε σ α} {f : α → EStateM ε σ β}
    (hx : Preserves P x) (hf : ∀ a, Preserves P (f a)) : Preserves P (x >>= f) := by
  intro s b t hs h
  obtain ⟨a, u, hu, ht⟩ := bind_eq_ok h
  exact hf a u b t (hx s a u hs hu) ht

/-- Every failure of the action is one of the given ones. -/
def Raises (F : ε → Prop) (x : EStateM ε σ α) : Prop :=
  ∀ s e t, x s = .error e t → F e

theorem Raises.pure (F : ε → Prop) (a : α) : Raises F (pure a : EStateM ε σ α) := by
  intro s e t h
  cases h

theorem Raises.throw {F : ε → Prop} {e : ε} (h : F e) : Raises F (throw e : EStateM ε σ α) := by
  intro s e' t hError
  cases hError
  exact h

theorem Raises.modify (F : ε → Prop) (f : σ → σ) : Raises F (modify f : EStateM ε σ PUnit) := by
  intro s e t h
  cases h

theorem Raises.bind {F : ε → Prop} {x : EStateM ε σ α} {f : α → EStateM ε σ β}
    (hx : Raises F x) (hf : ∀ a, Raises F (f a)) : Raises F (x >>= f) := by
  intro s e t h
  rcases bind_eq_error h with hFirst | ⟨a, u, _, hRest⟩
  · exact hx s e t hFirst
  · exact hf a u e t hRest

theorem Raises.get_bind {F : ε → Prop} {f : σ → EStateM ε σ β} (h : ∀ s, Raises F (f s)) :
    Raises F (get >>= f) :=
  fun s => h s s

/-- The same result with its state changed. -/
def mapState (change : σ → σ) : EStateM.Result ε σ α → EStateM.Result ε σ α
  | .ok a s => .ok a (change s)
  | .error e s => .error e (change s)

/-- The action does not notice the change of its state and does not undo it. -/
def Ignores (change : σ → σ) (x : EStateM ε σ α) : Prop :=
  ∀ s, x (change s) = mapState change (x s)

theorem Ignores.pure (change : σ → σ) (a : α) : Ignores change (pure a : EStateM ε σ α) :=
  fun _ => rfl

theorem Ignores.throw (change : σ → σ) (e : ε) : Ignores change (throw e : EStateM ε σ α) :=
  fun _ => rfl

theorem Ignores.bind {change : σ → σ} {x : EStateM ε σ α} {f : α → EStateM ε σ β}
    (hx : Ignores change x) (hf : ∀ a, Ignores change (f a)) : Ignores change (x >>= f) := by
  intro s
  rw [bind_apply, bind_apply, hx s]
  cases x s with
  | ok a t => exact hf a t
  | error e t => rfl

theorem Ignores.get_bind {change : σ → σ} {f : σ → EStateM ε σ β}
    (hChange : ∀ s, f (change s) = f s) (hf : ∀ s, Ignores change (f s)) :
    Ignores change (get >>= f) := by
  intro s
  rw [get_bind_apply, get_bind_apply, hChange]
  exact hf s s

/-- Whenever `y` succeeds, so does `x` from a related state, with a related result and
a related state, unless it fails with an allowed error. -/
def Matches (allowed : ε → Prop) (R : σ → τ → Prop) (V : α → β → Prop)
    (x : EStateM ε σ α) (y : EStateM δ τ β) : Prop :=
  ∀ s t, R s t → ∀ b t', y t = .ok b t' →
    (∃ a s', x s = .ok a s' ∧ V a b ∧ R s' t') ∨ ∃ e s', x s = .error e s' ∧ allowed e

variable {allowed : ε → Prop} {R : σ → τ → Prop} {V : α → β → Prop} {W : γ → η → Prop}

theorem Matches.pure {a : α} {b : β} (h : V a b) :
    Matches allowed R V (pure a : EStateM ε σ α) (pure b : EStateM δ τ β) := by
  intro s t hst b' t' hy
  cases hy
  exact .inl ⟨a, s, rfl, h, hst⟩

theorem Matches.throw_right (x : EStateM ε σ α) (e : δ) :
    Matches allowed R V x (throw e : EStateM δ τ β) := by
  intro s t _ b t' hy
  cases hy

theorem Matches.throw_left {e : ε} (h : allowed e) (y : EStateM δ τ β) :
    Matches allowed R V (throw e : EStateM ε σ α) y :=
  fun s _ _ _ _ _ => .inr ⟨e, s, rfl, h⟩

theorem Matches.bind {x : EStateM ε σ α} {y : EStateM δ τ β} {f : α → EStateM ε σ γ}
    {g : β → EStateM δ τ η} (hxy : Matches allowed R V x y)
    (hfg : ∀ a b, V a b → Matches allowed R W (f a) (g b)) :
    Matches allowed R W (x >>= f) (y >>= g) := by
  intro s t hst c t' hy
  obtain ⟨b, u, hu, ht⟩ := bind_eq_ok hy
  rcases hxy s t hst b u hu with ⟨a, s', hx, hab, hsu⟩ | ⟨e, s', hx, he⟩
  · rcases hfg a b hab s' u hsu c t' ht with ⟨d, s'', hf, hdc, hs⟩ | ⟨e, s'', hf, he⟩
    · exact .inl ⟨d, s'', by rw [bind_apply, hx]; exact hf, hdc, hs⟩
    · exact .inr ⟨e, s'', by rw [bind_apply, hx]; exact hf, he⟩
  · exact .inr ⟨e, s', by rw [bind_apply, hx], he⟩

theorem Matches.modify {f : σ → σ} {g : τ → τ} (h : ∀ s t, R s t → R (f s) (g t)) :
    Matches allowed R Eq (modify f : EStateM ε σ Unit) (modify g : EStateM δ τ Unit) := by
  intro s t hst b t' hy
  cases hy
  exact .inl ⟨(), f s, rfl, rfl, h s t hst⟩

theorem Matches.get_bind {f : σ → EStateM ε σ γ} {g : τ → EStateM δ τ η}
    (h : ∀ s t, R s t → Matches allowed R W (f s) (g t)) :
    Matches allowed R W (get >>= f) (get >>= g) :=
  fun s t hst c t' hy => h s t hst s t hst c t' hy

end Hinting.Action
