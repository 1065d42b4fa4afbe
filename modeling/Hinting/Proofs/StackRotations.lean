import Hinting.Proofs.StackDepth
import Mathlib.Data.List.Rotate

/-!
# Rotations of a stack

SWAP, ROLL and MINDEX all move one value to the top over those above it: the second, the third and
the one that an index denotes. They do it by pops and pushes or by taking a value out of its place.
What they have in common is stated by `Rotates`, and that they agree and go round follows from it.

An index counts from one at the top. Outside the stack it is refused after it was popped.
-/

namespace Hinting

open Hinting.Action

namespace StackAction

/-- Moves the value at an index to the top. -/
def moveAt (k : Int32) : StackAction Unit := do
  push (.known k)
  moveIndex

/-- Copies the value at an index to the top. -/
def copyAt (k : Int32) : StackAction Unit := do
  push (.known k)
  copyIndex

/-- The stack once an index was pushed and popped again. Only the peak tells of it. -/
def afterIndex (s : ValueStack) : ValueStack :=
  ⟨s.values, max s.peak (s.depth + 1)⟩

def repeated (x : StackAction Unit) : Nat → StackAction Unit
  | 0 => pure ()
  | n + 1 => do
    x
    repeated x n

/-- Both operations succeed and leave the same values. -/
def SameValues (x y : StackAction Unit) (s : ValueStack) : Prop :=
  ∃ t u, x s = .ok () t ∧ y s = .ok () u ∧ t.values = u.values

/-- The `n`-th value moves to the top, those above it shift down and those below it stay. -/
def Rotates (n : Nat) (x : StackAction Unit) : Prop :=
  ∀ (s : ValueStack) (above : List Value) (value : Value) (below : List Value),
    s.values = above ++ value :: below → above.length + 1 = n →
    ∃ t, x s = .ok () t ∧ t.values = value :: (above ++ below)

theorem exists_split {s : ValueStack} {n : Nat} (hPos : 0 < n) (hDepth : n ≤ s.depth) :
    ∃ above value below, s.values = above ++ value :: below ∧ above.length + 1 = n := by
  have hPlace : n - 1 < s.values.length := Nat.lt_of_lt_of_le (Nat.sub_one_lt_of_lt hPos) hDepth
  refine ⟨s.values.take (n - 1), s.values[n - 1], s.values.drop (n - 1 + 1), ?_, ?_⟩
  · rw [← List.drop_eq_getElem_cons hPlace, List.take_append_drop]
  · rw [List.length_take_of_le (Nat.le_of_lt hPlace), Nat.sub_add_cancel hPos]

section Index

variable {s : ValueStack} {k : Int32} {above below : List Value} {value : Value}

theorem place?_of_split (hValues : s.values = above ++ value :: below)
    (hIndex : k.toInt = (above.length + 1 : Nat)) : place? s k = some above.length := by
  have hDepth : s.depth = above.length + (below.length + 1) := by
    rw [ValueStack.depth, hValues, List.length_append, List.length_cons]
  rw [place?, if_pos ⟨by omega, by omega⟩, hIndex]
  rfl

theorem getElem?_of_split (hValues : s.values = above ++ value :: below) :
    s.values[above.length]? = some value := by
  rw [hValues, List.getElem?_append_right (Nat.le_refl _), Nat.sub_self, List.getElem?_cons_zero]

theorem moveFrom_of_split (hValues : s.values = above ++ value :: below)
    (hIndex : k.toInt = (above.length + 1 : Nat)) :
    moveFrom k s = .ok () { s with values := value :: (above ++ below) } := by
  have hErase : s.values.eraseIdx above.length = above ++ below := by
    rw [hValues, List.eraseIdx_append_of_length_le (Nat.le_refl _), Nat.sub_self,
      List.eraseIdx_cons_zero]
  rw [moveFrom, place?_of_split hValues hIndex]
  simp only [getElem?_of_split hValues, hErase]
  rfl

theorem copyFrom_of_split (hValues : s.values = above ++ value :: below)
    (hIndex : k.toInt = (above.length + 1 : Nat)) : copyFrom k s = .ok () (s.push value) := by
  rw [copyFrom, place?_of_split hValues hIndex, Option.bind_some, getElem?_of_split hValues]

theorem moveFrom_of_outside (h : ¬(1 ≤ k.toInt ∧ k.toInt ≤ s.depth)) :
    moveFrom k s = .error .stackUnderflow s := by
  rw [moveFrom, place?, if_neg h]

theorem copyFrom_of_outside (h : ¬(1 ≤ k.toInt ∧ k.toInt ≤ s.depth)) :
    copyFrom k s = .error .stackUnderflow s := by
  rw [copyFrom, place?, if_neg h, Option.bind_none]

theorem moveAt_eq (k : Int32) (s : ValueStack) : moveAt k s = moveFrom k (afterIndex s) :=
  rfl

theorem copyAt_eq (k : Int32) (s : ValueStack) : copyAt k s = copyFrom k (afterIndex s) :=
  rfl

theorem moveAt_of_split (hValues : s.values = above ++ value :: below)
    (hIndex : k.toInt = (above.length + 1 : Nat)) :
    moveAt k s = .ok () ⟨value :: (above ++ below), max s.peak (s.depth + 1)⟩ := by
  rw [moveAt_eq]
  exact moveFrom_of_split hValues hIndex

/-- The copy reaches the depth that the index had reached. -/
theorem copyAt_of_split (hValues : s.values = above ++ value :: below)
    (hIndex : k.toInt = (above.length + 1 : Nat)) : copyAt k s = .ok () (s.push value) := by
  have hPeak : max (max s.peak (s.depth + 1)) (s.depth + 1) = max s.peak (s.depth + 1) := by
    rw [Nat.max_assoc, Nat.max_self]
  have hPush : (afterIndex s).push value = s.push value :=
    congrArg (ValueStack.mk (value :: s.values)) hPeak
  rw [copyAt_eq, ← hPush]
  exact copyFrom_of_split hValues hIndex

theorem moveAt_of_outside (h : ¬(1 ≤ k.toInt ∧ k.toInt ≤ s.depth)) :
    moveAt k s = .error .stackUnderflow (afterIndex s) := by
  rw [moveAt_eq]
  exact moveFrom_of_outside h

theorem copyAt_of_outside (h : ¬(1 ≤ k.toInt ∧ k.toInt ≤ s.depth)) :
    copyAt k s = .error .stackUnderflow (afterIndex s) := by
  rw [copyAt_eq]
  exact copyFrom_of_outside h

end Index

theorem moveAt_rotates {k : Int32} {n : Nat} (hk : k.toInt = n) : Rotates n (moveAt k) := by
  rintro s above value below hValues rfl
  exact ⟨_, moveAt_of_split hValues hk, rfl⟩

theorem swap_rotates : Rotates 2 swap := by
  rintro ⟨values, peak⟩ above value below hValues hLength
  obtain ⟨a, rfl⟩ := List.length_eq_one_iff.mp (Nat.succ_inj.mp hLength)
  cases hValues
  exact ⟨_, rfl, rfl⟩

theorem roll_rotates : Rotates 3 roll := by
  rintro ⟨values, peak⟩ above value below hValues hLength
  obtain ⟨a, b, rfl⟩ := List.length_eq_two.mp (Nat.succ_inj.mp hLength)
  cases hValues
  exact ⟨_, rfl, rfl⟩

theorem dup_eq_copyAt {s : ValueStack} (h : 1 ≤ s.depth) :
    ∃ t, dup s = .ok () t ∧ copyAt 1 s = .ok () t := by
  obtain ⟨above, value, below, hValues, hLength⟩ := exists_split Nat.one_pos h
  obtain rfl := List.length_eq_zero_iff.mp (Nat.succ_inj.mp hLength)
  refine ⟨s.push value, ?_, copyAt_of_split hValues rfl⟩
  rw [dup, ValueStack.top?, hValues]
  rfl

section Rounds

variable {n : Nat} {x y : StackAction Unit} {s : ValueStack}

theorem Rotates.sameValues (hx : Rotates n x) (hy : Rotates n y) (hPos : 0 < n)
    (hDepth : n ≤ s.depth) : SameValues x y s := by
  obtain ⟨above, value, below, hValues, hLength⟩ := exists_split hPos hDepth
  obtain ⟨t, ht, htValues⟩ := hx s above value below hValues hLength
  obtain ⟨u, hu, huValues⟩ := hy s above value below hValues hLength
  exact ⟨t, u, ht, hu, htValues.trans huValues.symm⟩

/-- One step turns the upper values by one place. -/
theorem Rotates.step (hx : Rotates n x) (hPos : 0 < n) {top below : List Value}
    (hValues : s.values = top ++ below) (hTop : top.length = n) :
    ∃ t, x s = .ok () t ∧ t.values = top.rotate (n - 1) ++ below := by
  obtain ⟨above, value, rfl⟩ : ∃ above value, top = above ++ [value] :=
    ⟨_, _, (List.dropLast_concat_getLast (List.ne_nil_of_length_pos (hTop ▸ hPos))).symm⟩
  rw [List.length_append, List.length_singleton] at hTop
  rw [List.append_assoc, List.singleton_append] at hValues
  obtain ⟨t, ht, htValues⟩ := hx s above value below hValues hTop
  refine ⟨t, ht, htValues.trans ?_⟩
  rw [← hTop, Nat.add_sub_cancel, List.rotate_append_length_eq]
  rfl

/-- After `m` steps they have turned by `m` places. Operations that take before they put also keep
the peak of a sound stack. -/
theorem Rotates.run (hx : Rotates n x) (hPos : 0 < n) (m : Nat) {top below : List Value}
    (hValues : s.values = top ++ below) (hTop : top.length = n) :
    ∃ t, repeated x m s = .ok () t ∧ t.values = top.rotate (m * (n - 1)) ++ below ∧
      (Turns id x → s.Sound → t.peak = s.peak) := by
  induction m generalizing s top with
  | zero => exact ⟨s, rfl, by rwa [Nat.zero_mul, List.rotate_zero], fun _ _ => rfl⟩
  | succ m ih =>
    obtain ⟨t, ht, htValues⟩ := hx.step hPos hValues hTop
    obtain ⟨u, hu, huValues, huPeak⟩ := ih htValues (top.length_rotate _ ▸ hTop)
    refine ⟨u, (bind_of_ok ht _).trans hu, ?_, fun hTurns hSound => ?_⟩
    · rw [huValues, List.rotate_rotate, Nat.succ_mul, Nat.add_comm]
    · have hDepth : t.depth = s.depth := by
        rw [ValueStack.depth, ValueStack.depth, htValues, hValues, List.length_append,
          List.length_append, List.length_rotate]
      have hTurn : s.Turns t := by
        have hReached := hTurns s
        rwa [ht] at hReached
      rw [huPeak hTurns (hTurn.sound hSound), hTurn hSound, hDepth, Nat.max_eq_left hSound]

theorem Rotates.round (hx : Rotates n x) (hPos : 0 < n) (hDepth : n ≤ s.depth) :
    ∃ t, repeated x n s = .ok () t ∧ t.values = s.values ∧
      (Turns id x → s.Sound → t.peak = s.peak) := by
  have hTop : (s.values.take n).length = n := List.length_take_of_le hDepth
  obtain ⟨t, ht, htValues, htPeak⟩ := hx.run hPos n (List.take_append_drop n s.values).symm hTop
  refine ⟨t, ht, htValues.trans ?_, htPeak⟩
  have hWhole : (s.values.take n).rotate (n * (n - 1)) = s.values.take n := by
    have hRound := List.rotate_length_mul (s.values.take n) (n - 1)
    rwa [hTop] at hRound
  rw [hWhole, List.take_append_drop]

theorem Rotates.sameValues_round (hx : Rotates n x) (hPos : 0 < n) (hDepth : n ≤ s.depth) :
    SameValues (repeated x n) (pure ()) s := by
  obtain ⟨t, ht, htValues, _⟩ := hx.round hPos hDepth
  exact ⟨t, s, ht, rfl, htValues⟩

theorem Rotates.round_eq (hx : Rotates n x) (hPos : 0 < n) (hDepth : n ≤ s.depth)
    (hTurns : Turns id x) (hSound : s.Sound) : repeated x n s = .ok () s := by
  obtain ⟨⟨values, peak⟩, ht, htValues, htPeak⟩ := hx.round hPos hDepth
  cases htValues
  cases htPeak hTurns hSound
  exact ht

end Rounds

/-- An index within the stack denotes one value, which is moved or copied, and no other is lost. So
the rearrangements agree and go round. An index outside the stack is refused. -/
theorem rotations_agree (s : ValueStack) :
    (∀ k : Int32, 1 ≤ k.toInt → k.toInt ≤ s.depth →
      (∃ above value below, s.values = above ++ value :: below ∧
        k.toInt = (above.length + 1 : Nat) ∧
        moveAt k s = .ok () ⟨value :: (above ++ below), max s.peak (s.depth + 1)⟩ ∧
        copyAt k s = .ok () (s.push value)) ∧
      SameValues (repeated (moveAt k) k.toInt.toNat) (pure ()) s) ∧
    (1 ≤ s.depth → ∃ t, dup s = .ok () t ∧ copyAt 1 s = .ok () t) ∧
    (2 ≤ s.depth → SameValues (moveAt 2) swap s ∧ SameValues (repeated swap 2) (pure ()) s ∧
      (s.Sound → repeated swap 2 s = .ok () s)) ∧
    (3 ≤ s.depth → SameValues (moveAt 3) roll s ∧ SameValues (repeated roll 3) (pure ()) s ∧
      (s.Sound → repeated roll 3 s = .ok () s)) ∧
    ∀ k : Int32, ¬(1 ≤ k.toInt ∧ k.toInt ≤ s.depth) →
      moveAt k s = .error .stackUnderflow ⟨s.values, max s.peak (s.depth + 1)⟩ ∧
      copyAt k s = .error .stackUnderflow ⟨s.values, max s.peak (s.depth + 1)⟩ := by
  refine ⟨fun k hLow hHigh => ?_, dup_eq_copyAt, fun hDepth => ?_, fun hDepth => ?_,
    fun k hOutside => ⟨moveAt_of_outside hOutside, copyAt_of_outside hOutside⟩⟩
  · have hIndex : k.toInt = k.toInt.toNat := by omega
    have hPos : 0 < k.toInt.toNat := by omega
    have hDepth : k.toInt.toNat ≤ s.depth := by omega
    obtain ⟨above, value, below, hValues, hLength⟩ := exists_split hPos hDepth
    rw [← hLength] at hIndex
    exact ⟨⟨above, value, below, hValues, hIndex, moveAt_of_split hValues hIndex,
      copyAt_of_split hValues hIndex⟩, (moveAt_rotates (by omega)).sameValues_round hPos hDepth⟩
  · exact ⟨(moveAt_rotates rfl).sameValues swap_rotates (by decide) hDepth,
      swap_rotates.sameValues_round (by decide) hDepth,
      swap_rotates.round_eq (by decide) hDepth swap_turns⟩
  · exact ⟨(moveAt_rotates rfl).sameValues roll_rotates (by decide) hDepth,
      roll_rotates.sameValues_round (by decide) hDepth,
      roll_rotates.round_eq (by decide) hDepth roll_turns⟩

/-- Three values of which the deepest is moved. Below it there is nothing to denote. -/
theorem rotations_agree_at_bottom :
    (∃ above value below, [.known 7, .unknown, .known 9] = above ++ value :: below ∧
      (3 : Int32).toInt = (above.length + 1 : Nat) ∧
      moveAt 3 ⟨[.known 7, .unknown, .known 9], 3⟩ = .ok () ⟨value :: (above ++ below), 4⟩ ∧
      copyAt 3 ⟨[.known 7, .unknown, .known 9], 3⟩ =
        .ok () ⟨[value, .known 7, .unknown, .known 9], 4⟩) ∧
    repeated roll 3 ⟨[.known 7, .unknown, .known 9], 3⟩ =
      .ok () ⟨[.known 7, .unknown, .known 9], 3⟩ ∧
    moveAt 4 ⟨[.known 7, .unknown, .known 9], 3⟩ =
      .error .stackUnderflow ⟨[.known 7, .unknown, .known 9], 4⟩ := by
  obtain ⟨hIndex, _, _, hRoll, hOutside⟩ :=
    rotations_agree ⟨[.known 7, .unknown, .known 9], 3⟩
  exact ⟨(hIndex 3 (by decide) (by decide)).1, (hRoll (by decide)).2.2 (Nat.le_refl 3),
    (hOutside 4 (by decide)).1⟩

end StackAction

end Hinting
