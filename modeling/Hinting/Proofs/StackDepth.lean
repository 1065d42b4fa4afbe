import Hinting.Proofs.Action
import Hinting.Semantics.Dispatch

/-!
# The depth of a stack and its peak

Every operation on a stack takes values off first and puts values on afterwards. On the way
down the peak stays, on the way up it follows the depth. So the new peak is the larger one of
the old peak and the new depth, however the operation has ended, and the peak after a number of
operations is the largest depth that any of them has left. Statements work on the stack of
their environment in the same way.
-/

namespace Hinting

/-- The largest of some numbers, and zero when there are none. -/
def largest (numbers : List Nat) : Nat :=
  numbers.max?.getD 0

@[simp]
theorem largest_cons (n : Nat) (rest : List Nat) : largest (n :: rest) = max n (largest rest) := by
  rw [largest, largest, List.max?_cons, Option.getD_some]
  cases rest.max? with
  | none => exact (Nat.max_zero n).symm
  | some m => rfl

@[simp]
theorem largest_append (numbers later : List Nat) :
    largest (numbers ++ later) = max (largest numbers) (largest later) := by
  induction numbers with
  | nil => exact (Nat.zero_max _).symm
  | cons n rest ih => simp [ih, Nat.max_assoc]

theorem le_largest {n : Nat} {numbers : List Nat} (h : n ∈ numbers) : n ≤ largest numbers :=
  List.le_max?_getD_of_mem h

theorem largest_le {numbers : List Nat} {bound : Nat} (h : ∀ n ∈ numbers, n ≤ bound) :
    largest numbers ≤ bound := by
  induction numbers with
  | nil => exact Nat.zero_le bound
  | cons n rest ih =>
    rw [List.forall_mem_cons] at h
    rw [largest_cons]
    exact Nat.max_le.mpr ⟨h.1, ih h.2⟩

namespace ValueStack

/-- The peak is not below the depth. -/
def Sound (s : ValueStack) : Prop :=
  s.depth ≤ s.peak

/-- Values were taken off. -/
structure Falls (s t : ValueStack) : Prop where
  depth : t.depth ≤ s.depth
  peak : t.peak = s.peak

/-- Values were put on. -/
structure Rises (s t : ValueStack) : Prop where
  depth : s.depth ≤ t.depth
  peak : s.Sound → t.peak = max s.peak t.depth

/-- Values were taken off and then put on. -/
def Turns (s t : ValueStack) : Prop :=
  s.Sound → t.peak = max s.peak t.depth

variable {s t u : ValueStack}

theorem Falls.refl (s : ValueStack) : s.Falls s :=
  ⟨Nat.le_refl _, rfl⟩

theorem Falls.trans (h : s.Falls t) (h' : t.Falls u) : s.Falls u :=
  ⟨Nat.le_trans h'.depth h.depth, h'.peak.trans h.peak⟩

theorem Falls.sound (h : s.Falls t) (hs : s.Sound) : t.Sound := by
  rw [Sound, h.peak]
  exact Nat.le_trans h.depth hs

theorem Falls.turns (h : s.Falls t) : s.Turns t := by
  intro hs
  rw [h.peak, Nat.max_eq_left (Nat.le_trans h.depth hs)]

theorem Turns.sound (h : s.Turns t) (hs : s.Sound) : t.Sound := by
  rw [Sound, h hs]
  exact Nat.le_max_right _ _

theorem Rises.turns (h : s.Rises t) : s.Turns t :=
  h.peak

theorem Rises.refl (s : ValueStack) : s.Rises s :=
  ⟨Nat.le_refl _, fun hs => (Nat.max_eq_left hs).symm⟩

theorem Turns.then_rises (h : s.Turns t) (h' : t.Rises u) : s.Turns u := by
  intro hs
  rw [h'.peak (h.sound hs), h hs, Nat.max_assoc, Nat.max_eq_right h'.depth]

theorem Rises.trans (h : s.Rises t) (h' : t.Rises u) : s.Rises u :=
  ⟨Nat.le_trans h.depth h'.depth, h.turns.then_rises h'⟩

theorem Falls.then_turns (h : s.Falls t) (h' : t.Turns u) : s.Turns u := by
  intro hs
  rw [h' (h.sound hs), h.peak]

theorem rises_pushAll (s : ValueStack) (values : List Value) : s.Rises (s.pushAll values) where
  depth := by simp [depth, pushAll]
  peak _ := rfl

theorem falls_clear (s : ValueStack) : s.Falls s.clear :=
  ⟨Nat.zero_le _, rfl⟩

end ValueStack

namespace Action

variable {ε σ α β : Type}

/-- The state in which an action has ended. -/
def reached : EStateM.Result ε σ α → σ
  | .ok _ s => s
  | .error _ s => s

/-- However the action ends, it takes the state to a related one. -/
def Moves (R : σ → σ → Prop) (x : EStateM ε σ α) : Prop :=
  ∀ s, R s (reached (x s))

theorem Moves.mono {R S : σ → σ → Prop} {x : EStateM ε σ α} (h : Moves R x)
    (hRS : ∀ s t, R s t → S s t) : Moves S x :=
  fun s => hRS s _ (h s)

theorem Moves.bind {R S T : σ → σ → Prop} {x : EStateM ε σ α} {f : α → EStateM ε σ β}
    (hx : Moves R x) (hf : ∀ a, Moves S (f a)) (hStop : ∀ s t, R s t → T s t)
    (hJoin : ∀ s t u, R s t → S t u → T s u) : Moves T (x >>= f) := by
  intro s
  have hFirst := hx s
  rw [bind_apply]
  cases hx' : x s with
  | ok a t =>
    rw [hx'] at hFirst
    exact hJoin s t _ hFirst (hf a t)
  | error e t =>
    rw [hx'] at hFirst
    exact hStop s t hFirst

theorem Moves.get_bind {R : σ → σ → Prop} {f : σ → EStateM ε σ β} (h : ∀ s, Moves R (f s)) :
    Moves R (get >>= f) :=
  fun s => h s s

section Stack

variable (stack : σ → ValueStack)

/-- The action does not touch the stack. -/
abbrev Leaves (x : EStateM ε σ α) : Prop :=
  Moves (fun s t => stack t = stack s) x

/-- The action only takes values off the stack. -/
abbrev Takes (x : EStateM ε σ α) : Prop :=
  Moves (fun s t => (stack s).Falls (stack t)) x

/-- The action only puts values on the stack. -/
abbrev Puts (x : EStateM ε σ α) : Prop :=
  Moves (fun s t => (stack s).Rises (stack t)) x

/-- The action takes values off the stack and then puts values on. -/
abbrev Turns (x : EStateM ε σ α) : Prop :=
  Moves (fun s t => (stack s).Turns (stack t)) x

variable {stack} {x : EStateM ε σ α} {f : α → EStateM ε σ β}

theorem Leaves.takes (h : Leaves stack x) : Takes stack x :=
  h.mono fun _ _ hSame => hSame ▸ .refl _

theorem Leaves.puts (h : Leaves stack x) : Puts stack x :=
  h.mono fun _ _ hSame => hSame ▸ .refl _

theorem Takes.turns (h : Takes stack x) : Turns stack x :=
  h.mono fun _ _ hFalls => hFalls.turns

theorem Puts.turns (h : Puts stack x) : Turns stack x :=
  h.mono fun _ _ hRises => hRises.turns

theorem Leaves.turns (h : Leaves stack x) : Turns stack x :=
  h.takes.turns

theorem leaves_pure (a : α) : Leaves stack (pure a : EStateM ε σ α) :=
  fun _ => rfl

theorem leaves_throw (e : ε) : Leaves stack (throw e : EStateM ε σ α) :=
  fun _ => rfl

theorem Takes.bind (hx : Takes stack x) (hf : ∀ a, Takes stack (f a)) :
    Takes stack (x >>= f) :=
  Moves.bind hx hf (fun _ _ h => h) fun _ _ _ h => h.trans

theorem Puts.bind (hx : Puts stack x) (hf : ∀ a, Puts stack (f a)) : Puts stack (x >>= f) :=
  Moves.bind hx hf (fun _ _ h => h) fun _ _ _ h => h.trans

theorem Takes.bind_turns (hx : Takes stack x) (hf : ∀ a, Turns stack (f a)) :
    Turns stack (x >>= f) :=
  Moves.bind hx hf (fun _ _ hFalls => hFalls.turns) fun _ _ _ hFalls => hFalls.then_turns

theorem Turns.bind_puts (hx : Turns stack x) (hf : ∀ a, Puts stack (f a)) :
    Turns stack (x >>= f) :=
  Moves.bind hx hf (fun _ _ h => h) fun _ _ _ hTurns => hTurns.then_rises

end Stack

end Action

open Hinting.Action

namespace StackAction

theorem pop_takes : Takes id pop := by
  intro s
  unfold pop
  split
  · exact .refl s
  · rename_i value rest hValues
    exact ⟨by simp [reached, ValueStack.depth, hValues], rfl⟩

theorem push_puts (value : Value) : Puts id (push value) :=
  fun s => s.rises_pushAll [value]

theorem discard_takes (count : Nat) : Takes id (discard count) := by
  intro s
  unfold discard
  split
  · exact ⟨by simp [reached, ValueStack.depth], rfl⟩
  · exact .refl s

theorem unary_turns (f : Value → Value) : Turns id (unary f) :=
  pop_takes.bind_turns fun _ => (push_puts _).turns

theorem binary_turns (f : Value → Value → Value) : Turns id (binary f) :=
  pop_takes.bind_turns fun _ => pop_takes.bind_turns fun _ => (push_puts _).turns

theorem dup_puts : Puts id dup := by
  intro s
  unfold dup
  split
  · exact s.rises_pushAll _
  · exact .refl s

theorem swap_turns : Turns id swap :=
  pop_takes.bind_turns fun _ => pop_takes.bind_turns fun _ =>
    ((push_puts _).bind fun _ => push_puts _).turns

theorem roll_turns : Turns id roll :=
  pop_takes.bind_turns fun _ => pop_takes.bind_turns fun _ => pop_takes.bind_turns fun _ =>
    ((push_puts _).bind fun _ => (push_puts _).bind fun _ => push_puts _).turns

theorem copyFrom_puts (index : Int32) : Puts id (copyFrom index) := by
  intro s
  unfold copyFrom
  split
  · exact s.rises_pushAll _
  · exact .refl s

theorem copyIndex_turns : Turns id copyIndex := by
  apply pop_takes.bind_turns
  intro value
  cases value with
  | known index => exact (copyFrom_puts index).turns
  | unknown => exact (push_puts _).turns

/-- The value leaves its old place, so that the stack does not grow. -/
theorem moveFrom_takes (index : Int32) : Takes id (moveFrom index) := by
  intro s
  unfold moveFrom
  split
  · rename_i place hPlace
    refine ⟨?_, rfl⟩
    simp only [reached, id, ValueStack.depth, List.length_append, List.length_eraseIdx]
    cases hValue : s.values[place]? with
    | none =>
      rw [List.getElem?_eq_none_iff] at hValue
      rw [if_neg (Nat.not_lt.mpr hValue)]
      exact Nat.le_of_eq (Nat.zero_add _)
    | some value =>
      obtain ⟨hBound, _⟩ := List.getElem?_eq_some_iff.mp hValue
      rw [if_pos hBound, Option.toList_some, List.length_singleton]
      omega
  · exact .refl s

theorem forget_takes : Takes id forget := by
  intro s
  unfold forget
  split
  · exact .refl s
  · exact ⟨by simp [reached, ValueStack.depth], rfl⟩

theorem moveIndex_takes : Takes id moveIndex := by
  apply pop_takes.bind
  intro value
  cases value with
  | known index => exact moveFrom_takes index
  | unknown => exact forget_takes

end StackAction

inductive StackOperation
  | push (value : Value)
  | pushWords (words : List Int32)
  | pop
  | discard (count : Nat)
  | unary (f : Value → Value)
  | binary (f : Value → Value → Value)
  | clear
  | dup
  | swap
  | copyIndex
  | moveIndex
  | roll

namespace StackOperation

def perform : StackOperation → StackAction Unit
  | .push value => StackAction.push value
  | .pushWords words => modify (·.pushWords words)
  | .pop => do
    let _ ← StackAction.pop
  | .discard count => StackAction.discard count
  | .unary f => StackAction.unary f
  | .binary f => StackAction.binary f
  | .clear => modify (·.clear)
  | .dup => StackAction.dup
  | .swap => StackAction.swap
  | .copyIndex => StackAction.copyIndex
  | .moveIndex => StackAction.moveIndex
  | .roll => StackAction.roll

open StackAction in
theorem perform_turns (o : StackOperation) : Turns id o.perform := by
  cases o with
  | push value => exact (push_puts value).turns
  | pushWords words => exact fun s => (s.rises_pushAll _).turns
  | pop => exact (pop_takes.bind fun _ => (leaves_pure _).takes).turns
  | discard count => exact (discard_takes count).turns
  | unary f => exact unary_turns f
  | binary f => exact binary_turns f
  | clear => exact fun s => s.falls_clear.turns
  | dup => exact dup_puts.turns
  | swap => exact swap_turns
  | copyIndex => exact copyIndex_turns
  | moveIndex => exact moveIndex_takes.turns
  | roll => exact roll_turns

end StackOperation

namespace ValueStack

/-- The stack that an operation leaves, also when it fails. -/
def after (s : ValueStack) (o : StackOperation) : ValueStack :=
  reached (o.perform s)

def afterAll (s : ValueStack) (operations : List StackOperation) : ValueStack :=
  operations.foldl after s

/-- The depths that the stack has after each of some operations, in order. -/
def depthsAfter (s : ValueStack) : List StackOperation → List Nat
  | [] => []
  | o :: rest => (s.after o).depth :: (s.after o).depthsAfter rest

theorem peak_afterAll {s : ValueStack} (hs : s.Sound) (operations : List StackOperation) :
    (s.afterAll operations).Sound ∧
      (s.afterAll operations).peak = max s.peak (largest (s.depthsAfter operations)) := by
  induction operations generalizing s with
  | nil => exact ⟨hs, (Nat.max_zero _).symm⟩
  | cons o rest ih =>
    have hTurns : s.Turns (s.after o) := o.perform_turns s
    obtain ⟨hSound, hPeak⟩ := ih (hTurns.sound hs)
    refine ⟨hSound, hPeak.trans ?_⟩
    rw [hTurns hs, depthsAfter, largest_cons, Nat.max_assoc]

end ValueStack

namespace EnvAction

variable {α : Type}

/-- What an action does to a stack it does to the stack of an environment. -/
theorem onStack_moves {R : ValueStack → ValueStack → Prop} {action : StackAction α}
    (h : Moves R action) : Moves (fun env after => R env.stack after.stack) (onStack action) := by
  intro env
  have hStack := h env.stack
  unfold onStack
  split
  · rename_i a stack hAction
    rw [hAction] at hStack
    exact hStack
  · rename_i fault stack hAction
    rw [hAction] at hStack
    exact hStack

theorem pop_takes : Takes Environment.stack pop :=
  onStack_moves StackAction.pop_takes

theorem discard_takes (count : Nat) : Takes Environment.stack (discard count) :=
  onStack_moves (StackAction.discard_takes count)

theorem setGraphics_leaves (change : GraphicsState → GraphicsState) :
    Leaves Environment.stack (setGraphics change) :=
  fun _ => rfl

theorem readCvt_leaves (index : Value) : Leaves Environment.stack (readCvt index) := by
  intro env
  unfold readCvt
  split
  · rfl
  · rfl

theorem readStorage_leaves (index : Value) : Leaves Environment.stack (readStorage index) := by
  intro env
  unfold readStorage
  split
  · rfl
  · rfl

theorem writeCvt_leaves (index value : Value) :
    Leaves Environment.stack (writeCvt index value) := by
  intro env
  cases index with
  | unknown => rfl
  | known index =>
    simp only [writeCvt, Environment.writeCvt]
    cases env.cvtPlace index with
    | ok place => rfl
    | error fault => rfl

theorem writeStorage_leaves (index value : Value) :
    Leaves Environment.stack (writeStorage index value) := by
  intro env
  cases index with
  | unknown => rfl
  | known index =>
    simp only [writeStorage, Environment.writeStorage]
    cases Environment.storagePlace index with
    | ok place => rfl
    | error fault => rfl

theorem effect_turns {action : EnvAction Unit} (h : Turns Environment.stack action) :
    Turns Environment.stack (Statement.perform.effect action) :=
  h.bind_puts fun _ => (leaves_pure _).puts

end EnvAction

end Hinting
