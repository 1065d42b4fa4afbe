import Hinting.Body
import Hinting.Run

/-!
# The order in which a block is run

`Block.dispatched` lists the statements that a run applies, each with its position, in
the order of the run. With both arms taken every position occurs once. With the THEN
arm taken the positions ascend, and those are left out that stand from an ELSE up to
its EIF.
-/

namespace Hinting

/-- Whether a position stands from the ELSE of the branch up to its EIF. -/
def Branch.skips (branch : Branch) (position : Nat) : Bool :=
  match branch.elsePosition? with
  | none => false
  | some mid => mid ≤ position && position < branch.eifPosition

namespace Block

/-- The statements of a block that starts at `start`, with their positions, as a run
applies them. -/
def dispatched (policy : BranchPolicy) (start : Nat) : Block → List (Statement × Nat)
  | .nil => []
  | .step s rest => (s, start) :: rest.dispatched policy (start + 1)
  | .cond s thenArm eif rest =>
    (s, start) :: thenArm.dispatched policy (start + 1) ++
      (eif, start + thenArm.size + 1) :: rest.dispatched policy (start + thenArm.size + 2)
  | .condElse s thenArm mid elseArm eif rest =>
    let midPosition := start + thenArm.size + 1
    let eifPosition := midPosition + elseArm.size + 1
    (s, start) ::
      (if policy = .bothArms then
        (mid, midPosition) :: elseArm.dispatched policy (midPosition + 1)
      else []) ++
      thenArm.dispatched policy (start + 1) ++
      (eif, eifPosition) :: rest.dispatched policy (eifPosition + 1)

theorem length_statements (b : Block) : b.statements.length = b.size := by
  induction b with
  | nil => rfl
  | step s rest ih => simp [statements, size, ih]
  | cond s thenArm eif rest ihThen ihRest =>
    simp [statements, size, ihThen, ihRest]
    omega
  | condElse s thenArm mid elseArm eif rest ihThen ihElse ihRest =>
    simp [statements, size, ihThen, ihElse, ihRest]
    omega

theorem zipIdx_append_cons (front back : List Statement) (s : Statement) (start : Nat) :
    (front ++ s :: back).zipIdx start = front.zipIdx start ++
      (s, start + front.length) :: back.zipIdx (start + front.length + 1) := by
  rw [List.zipIdx_append, List.zipIdx_cons]

theorem zipIdx_statements_cond (s eif : Statement) (thenArm rest : Block) (start : Nat) :
    (cond s thenArm eif rest).statements.zipIdx start =
      (s, start) :: thenArm.statements.zipIdx (start + 1) ++
        (eif, start + thenArm.size + 1) ::
          rest.statements.zipIdx (start + thenArm.size + 2) := by
  rw [statements, List.cons_append, List.zipIdx_cons, zipIdx_append_cons, length_statements,
    Nat.add_right_comm start 1]
  rfl

theorem zipIdx_statements_condElse (s mid eif : Statement) (thenArm elseArm rest : Block)
    (start : Nat) :
    (condElse s thenArm mid elseArm eif rest).statements.zipIdx start =
      (s, start) :: thenArm.statements.zipIdx (start + 1) ++
        (mid, start + thenArm.size + 1) ::
          elseArm.statements.zipIdx (start + thenArm.size + 1 + 1) ++
        (eif, start + thenArm.size + 1 + elseArm.size + 1) ::
          rest.statements.zipIdx (start + thenArm.size + 1 + elseArm.size + 1 + 1) := by
  rw [statements, List.append_assoc, List.cons_append, List.zipIdx_cons, List.cons_append,
    zipIdx_append_cons, zipIdx_append_cons, length_statements, length_statements,
    Nat.add_right_comm start 1, Nat.add_right_comm (start + thenArm.size + 1) 1]
  simp

theorem dispatched_bothArms_perm (b : Block) (start : Nat) :
    (b.dispatched .bothArms start).Perm (b.statements.zipIdx start) := by
  induction b generalizing start with
  | nil => exact .nil
  | step s rest ih => exact (ih (start + 1)).cons _
  | cond s thenArm eif rest ihThen ihRest =>
    rw [zipIdx_statements_cond]
    exact ((ihThen _).append ((ihRest _).cons _)).cons _
  | condElse s thenArm mid elseArm eif rest ihThen ihElse ihRest =>
    rw [zipIdx_statements_condElse]
    simp only [dispatched, if_pos]
    refine .cons _ (.append ?_ ((ihRest _).cons _))
    exact List.perm_append_comm.trans ((ihThen _).append ((ihElse _).cons _))

/-- Whether a position stands in no part that the branches of a block skip. -/
def keeps (b : Block) (start position : Nat) : Bool :=
  (b.branches start).all fun branch => !branch.skips position

theorem keeps_cond (s eif : Statement) (thenArm rest : Block) (start position : Nat) :
    (cond s thenArm eif rest).keeps start position = (thenArm.keeps (start + 1) position &&
      rest.keeps (start + thenArm.size + 2) position) := by
  simp [keeps, branches, Branch.skips]

theorem keeps_condElse (s mid eif : Statement) (thenArm elseArm rest : Block)
    (start position : Nat) :
    (condElse s thenArm mid elseArm eif rest).keeps start position =
      (!(decide (start + thenArm.size + 1 ≤ position) &&
          decide (position < start + thenArm.size + 1 + elseArm.size + 1)) &&
        thenArm.keeps (start + 1) position &&
        elseArm.keeps (start + thenArm.size + 1 + 1) position &&
        rest.keeps (start + thenArm.size + 1 + elseArm.size + 1 + 1) position) := by
  simp [keeps, branches, Branch.skips, Bool.and_assoc]

theorem keeps_of_outside (b : Block) {start position : Nat}
    (h : position < start ∨ start + b.size ≤ position) : b.keeps start position = true := by
  induction b generalizing start with
  | nil => rfl
  | step s rest ih =>
    refine ih ?_
    simp only [size] at h
    omega
  | cond s thenArm eif rest ihThen ihRest =>
    simp only [size] at h
    rw [keeps_cond, ihThen (by omega), ihRest (by omega), Bool.and_self]
  | condElse s thenArm mid elseArm eif rest ihThen ihElse ihRest =>
    simp only [size] at h
    rw [keeps_condElse, ihThen (by omega), ihElse (by omega), ihRest (by omega)]
    simp only [Bool.and_true, Bool.not_eq_true', Bool.and_eq_false_iff, decide_eq_false_iff_not]
    omega

theorem keeps_condElse_of_skipped (s mid eif : Statement) (thenArm elseArm rest : Block)
    {start position : Nat} (hStart : start + thenArm.size + 1 ≤ position)
    (hEnd : position < start + thenArm.size + 1 + elseArm.size + 1) :
    (condElse s thenArm mid elseArm eif rest).keeps start position = false := by
  rw [keeps_condElse, decide_eq_true hStart, decide_eq_true hEnd]
  rfl

theorem keeps_condElse_of_not_skipped (s mid eif : Statement) (thenArm elseArm rest : Block)
    {start position : Nat} (h : position < start + thenArm.size + 1 ∨
      start + thenArm.size + 1 + elseArm.size + 1 ≤ position) :
    (condElse s thenArm mid elseArm eif rest).keeps start position =
      (thenArm.keeps (start + 1) position &&
        rest.keeps (start + thenArm.size + 1 + elseArm.size + 1 + 1) position) := by
  have hSelf : (decide (start + thenArm.size + 1 ≤ position) &&
      decide (position < start + thenArm.size + 1 + elseArm.size + 1)) = false := by
    simp only [Bool.and_eq_false_iff, decide_eq_false_iff_not]
    omega
  rw [keeps_condElse, hSelf, elseArm.keeps_of_outside (by omega), Bool.not_false, Bool.true_and,
    Bool.and_true]

theorem filter_statements_eq_dispatched (b : Block) (start : Nat) (keep : Nat → Bool)
    (h : ∀ position, start ≤ position → position < start + b.size →
      keep position = b.keeps start position) :
    (b.statements.zipIdx start).filter (fun entry => keep entry.2) =
      b.dispatched .thenArm start := by
  -- `keep` is fixed by the whole body; inside of a part it has to say what `keeps` says there
  induction b generalizing start with
  | nil => rfl
  | step s rest ih =>
    simp only [size] at h
    have hFirst : keep start = true := by
      rw [h start (by omega) (by omega)]
      exact rest.keeps_of_outside (.inl (by omega))
    rw [statements, List.zipIdx_cons, List.filter_cons, hFirst, if_pos rfl,
      ih (start + 1) fun position hStart hEnd => h position (by omega) (by omega), dispatched]
  | cond s thenArm eif rest ihThen ihRest =>
    simp only [size, keeps_cond] at h
    have hIf : keep start = true := by
      rw [h _ (by omega) (by omega), thenArm.keeps_of_outside (.inl (by omega)),
        rest.keeps_of_outside (.inl (by omega)), Bool.and_self]
    have hEif : keep (start + thenArm.size + 1) = true := by
      rw [h _ (by omega) (by omega), thenArm.keeps_of_outside (.inr (by omega)),
        rest.keeps_of_outside (.inl (by omega)), Bool.and_self]
    have hThen := ihThen (start + 1) fun position hStart hEnd => by
      rw [h _ (by omega) (by omega), rest.keeps_of_outside (.inl (by omega)), Bool.and_true]
    have hRest := ihRest (start + thenArm.size + 2) fun position hStart hEnd => by
      rw [h _ (by omega) (by omega), thenArm.keeps_of_outside (.inr (by omega)), Bool.true_and]
    rw [zipIdx_statements_cond, List.filter_append, List.filter_cons, List.filter_cons, hIf, hEif,
      if_pos rfl, if_pos rfl, hThen, hRest, dispatched]
  | condElse s thenArm mid elseArm eif rest ihThen ihElse ihRest =>
    simp only [size] at h
    have hSkipped : ∀ position, start + thenArm.size + 1 ≤ position →
        position < start + thenArm.size + 1 + elseArm.size + 1 → keep position = false := by
      intro position hStart hEnd
      rw [h position (by omega) (by omega), keeps_condElse_of_skipped _ _ _ _ _ _ hStart hEnd]
    have hIf : keep start = true := by
      rw [h _ (by omega) (by omega), keeps_condElse_of_not_skipped _ _ _ _ _ _ (.inl (by omega)),
        thenArm.keeps_of_outside (.inl (by omega)), rest.keeps_of_outside (.inl (by omega)),
        Bool.and_self]
    have hThen := ihThen (start + 1) fun position hStart hEnd => by
      rw [h _ (by omega) (by omega), keeps_condElse_of_not_skipped _ _ _ _ _ _ (.inl (by omega)),
        rest.keeps_of_outside (.inl (by omega)), Bool.and_true]
    have hElse : (elseArm.statements.zipIdx (start + thenArm.size + 1 + 1)).filter
        (fun entry => keep entry.2) = [] := by
      refine List.filter_eq_nil_iff.mpr fun entry hEntry => ?_
      obtain ⟨hStart, hEnd, _⟩ := List.mem_zipIdx hEntry
      rw [length_statements] at hEnd
      rw [hSkipped entry.2 (by omega) (by omega)]
      exact Bool.false_ne_true
    have hEif : keep (start + thenArm.size + 1 + elseArm.size + 1) = true := by
      rw [h _ (by omega) (by omega), keeps_condElse_of_not_skipped _ _ _ _ _ _ (.inr (by omega)),
        thenArm.keeps_of_outside (.inr (by omega)), rest.keeps_of_outside (.inl (by omega)),
        Bool.and_self]
    have hRest := ihRest (start + thenArm.size + 1 + elseArm.size + 1 + 1)
      fun position hStart hEnd => by
        rw [h _ (by omega) (by omega),
          keeps_condElse_of_not_skipped _ _ _ _ _ _ (.inr (by omega)),
          thenArm.keeps_of_outside (.inr (by omega)), Bool.true_and]
    rw [zipIdx_statements_condElse, List.filter_append, List.filter_append, List.filter_cons,
      List.filter_cons, List.filter_cons, hIf, hSkipped _ (by omega) (by omega), hEif, hThen, hElse,
      hRest, dispatched]
    simp

end Block

end Hinting
