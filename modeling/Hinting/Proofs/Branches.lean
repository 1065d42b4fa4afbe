import Hinting.Proofs.BlockReading
import Hinting.Proofs.FlowGraph

/-!
# The branches of a block

The branches are listed in the order of their IFs, one for each IF. Of two branches the
later one comes after the EIF of the earlier one or stands inside of one of its arms.
-/

namespace Hinting

namespace Branch

/-- A branch inside of one arm of another one. -/
def Nests (outer inner : Branch) : Prop :=
  outer.ifPosition < inner.ifPosition ∧
      inner.eifPosition < outer.elsePosition?.getD outer.eifPosition ∨
    ∃ mid, outer.elsePosition? = some mid ∧ mid < inner.ifPosition ∧
      inner.eifPosition < outer.eifPosition

/-- The successors of the IF: the next statement, or the EIF when the THEN arm is empty,
and then the ELSE, or the EIF when there is none. -/
def targets (branch : Branch) : List Nat :=
  [if branch.ifPosition + 1 = branch.elsePosition?.getD branch.eifPosition
      then branch.eifPosition else branch.ifPosition + 1,
    branch.elsePosition?.getD branch.eifPosition]

end Branch

namespace Block

variable {start : Nat} {exit? source? : Option Nat} {branch : Branch}

theorem mem_branches_cond (s eif : Statement) (thenArm rest : Block) :
    branch ∈ (cond s thenArm eif rest).branches start ↔
      branch = ⟨start, none, start + thenArm.size + 1⟩ ∨ branch ∈ thenArm.branches (start + 1) ∨
        branch ∈ rest.branches (start + thenArm.size + 2) := by
  simp [branches]

theorem mem_branches_condElse (s mid eif : Statement) (thenArm elseArm rest : Block) :
    branch ∈ (condElse s thenArm mid elseArm eif rest).branches start ↔
      branch = ⟨start, some (start + thenArm.size + 1),
          start + thenArm.size + 1 + elseArm.size + 1⟩ ∨
        branch ∈ thenArm.branches (start + 1) ∨
        branch ∈ elseArm.branches (start + thenArm.size + 2) ∨
        branch ∈ rest.branches (start + thenArm.size + 1 + elseArm.size + 2) := by
  simp [branches]

theorem position_of_mem_branches {b : Block} (h : branch ∈ b.branches start) :
    start ≤ branch.ifPosition ∧ branch.ifPosition < branch.eifPosition ∧
      branch.eifPosition < start + b.size ∧ ∀ mid, branch.elsePosition? = some mid →
        branch.ifPosition < mid ∧ mid < branch.eifPosition := by
  induction b generalizing start with
  | nil => cases h
  | step s rest ih =>
    have hRest := ih h
    rw [size]
    grind
  | cond s thenArm eif rest ihThen ihRest =>
    rw [size]
    rcases (mem_branches_cond s eif thenArm rest).mp h with rfl | hThen | hRest
    · grind
    · have := ihThen hThen
      grind
    · have := ihRest hRest
      grind
  | condElse s thenArm mid elseArm eif rest ihThen ihElse ihRest =>
    rw [size]
    rcases (mem_branches_condElse s mid eif thenArm elseArm rest).mp h with
      rfl | hThen | hElse | hRest
    · grind
    · have := ihThen hThen
      grind
    · have := ihElse hElse
      grind
    · have := ihRest hRest
      grind

theorem pairwise_branches (b : Block) (start : Nat) :
    (b.branches start).Pairwise fun earlier later => earlier.ifPosition < later.ifPosition ∧
      (earlier.eifPosition < later.ifPosition ∨ earlier.Nests later) := by
  induction b generalizing start with
  | nil => exact .nil
  | step s rest ih => exact ih _
  | cond s thenArm eif rest ihThen ihRest =>
    rw [branches, List.pairwise_append, List.pairwise_cons]
    refine ⟨⟨fun inner hInner => ?_, ihThen _⟩, ihRest _, fun earlier hEarlier later hLater => ?_⟩
    · have := position_of_mem_branches hInner
      grind [Branch.Nests]
    · have := position_of_mem_branches hLater
      rcases List.mem_cons.mp hEarlier with rfl | hThen
      · grind
      · have := position_of_mem_branches hThen
        grind
  | condElse s thenArm mid elseArm eif rest ihThen ihElse ihRest =>
    simp only [branches, List.pairwise_append, List.pairwise_cons, List.mem_append, List.mem_cons]
    refine ⟨⟨⟨fun inner hInner => ?_, ihThen _⟩, ihElse _, fun earlier hEarlier later hLater => ?_⟩,
      ihRest _, fun earlier hEarlier later hLater => ?_⟩
    · have := position_of_mem_branches hInner
      grind [Branch.Nests]
    · have := position_of_mem_branches hLater
      rcases hEarlier with rfl | hThen
      · grind [Branch.Nests]
      · have := position_of_mem_branches hThen
        grind
    · have := position_of_mem_branches hLater
      rcases hEarlier with (rfl | hThen) | hElse
      · grind
      · have := position_of_mem_branches hThen
        grind
      · have := position_of_mem_branches hElse
        grind

theorem mem_branches_trichotomy {b : Block} {other : Branch} (h : branch ∈ b.branches start)
    (h' : other ∈ b.branches start) : branch = other ∨
      branch.ifPosition < other.ifPosition ∧
        (branch.eifPosition < other.ifPosition ∨ branch.Nests other) ∨
      other.ifPosition < branch.ifPosition ∧
        (other.eifPosition < branch.ifPosition ∨ other.Nests branch) := by
  have hPairwise := List.pairwise_iff_getElem.mp (b.pairwise_branches start)
  obtain ⟨i, hi, rfl⟩ := List.getElem_of_mem h
  obtain ⟨j, hj, rfl⟩ := List.getElem_of_mem h'
  rcases Nat.lt_trichotomy i j with hLess | rfl | hLess
  · exact .inr (.inl (hPairwise i j hi hj hLess))
  · exact .inl rfl
  · exact .inr (.inr (hPairwise j i hj hi hLess))

theorem eq_of_ifPosition_eq {b : Block} {other : Branch} (h : branch ∈ b.branches start)
    (h' : other ∈ b.branches start) (hEq : branch.ifPosition = other.ifPosition) :
    branch = other := by
  rcases mem_branches_trichotomy h h' with hEqual | ⟨hLess, _⟩ | ⟨hLess, _⟩
  · exact hEqual
  · omega
  · omega

theorem map_ifPosition_branches {b : Block} (h : b.Regular) (start : Nat) :
    (b.branches start).map (·.ifPosition) =
      ((b.statements.zipIdx start).filter fun entry => entry.1.kind = .ifStart).map Prod.snd := by
  induction b generalizing start with
  | nil => rfl
  | step s rest ih =>
    obtain ⟨hSimple, hRest⟩ := h
    have hKind : s.kind ≠ .ifStart := fun hKind => by simp [hKind, Kind.isSimple] at hSimple
    simp [statements, branches, List.zipIdx_cons, hKind, ih hRest]
  | cond s thenArm eif rest ihThen ihRest =>
    obtain ⟨hIf, hThen, hEif, hRest⟩ := h
    rw [zipIdx_statements_cond]
    simp [branches, hIf, hEif, ihThen hThen, ihRest hRest]
  | condElse s thenArm mid elseArm eif rest ihThen ihElse ihRest =>
    obtain ⟨hIf, hThen, hMid, hElse, hEif, hRest⟩ := h
    rw [zipIdx_statements_condElse]
    simp [branches, hIf, hMid, hEif, ihThen hThen, ihElse hElse, ihRest hRest]

theorem mem_flow_of_mem_branches {b : Block} (h : branch ∈ b.branches start) :
    (branch.targets, branch.ifPosition) ∈ b.flow start exit? := by
  induction b generalizing start exit? with
  | nil => cases h
  | step s rest ih => exact (mem_flow_step s rest).mpr (.inr (ih h))
  | cond s thenArm eif rest ihThen ihRest =>
    rw [mem_flow_cond]
    rcases (mem_branches_cond s eif thenArm rest).mp h with rfl | hThen | hRest
    · refine .inl (.inl ⟨?_, rfl⟩)
      by_cases hSize : thenArm.size = 0
      · simp [Branch.targets, entry?_of_size_eq_zero hSize, hSize]
      · simp [Branch.targets, entry?_of_size_ne_zero hSize, hSize]
    · exact .inl (.inr (ihThen hThen))
    · exact .inr (.inr (ihRest hRest))
  | condElse s thenArm mid elseArm eif rest ihThen ihElse ihRest =>
    rw [mem_flow_condElse]
    rcases (mem_branches_condElse s mid eif thenArm elseArm rest).mp h with
      rfl | hThen | hElse | hRest
    · refine .inl (.inl ⟨?_, rfl⟩)
      by_cases hSize : thenArm.size = 0
      · simp [Branch.targets, entry?_of_size_eq_zero hSize, hSize]
      · simp [Branch.targets, entry?_of_size_ne_zero hSize, hSize]
    · exact .inl (.inr (ihThen hThen))
    · exact .inr (.inl (.inr (ihElse hElse)))
    · exact .inr (.inr (.inr (ihRest hRest)))

theorem mem_backflow_of_mem_branches {b : Block} (h : branch ∈ b.branches start) {mid : Nat}
    (hMid : branch.elsePosition? = some mid) :
    ([branch.ifPosition], mid) ∈ b.backflow start source? := by
  induction b generalizing start source? with
  | nil => cases h
  | step s rest ih => exact (mem_backflow_step s rest).mpr (.inr (ih h))
  | cond s thenArm eif rest ihThen ihRest =>
    rw [mem_backflow_cond]
    rcases (mem_branches_cond s eif thenArm rest).mp h with rfl | hThen | hRest
    · cases hMid
    · exact .inl (.inr (ihThen hThen))
    · exact .inr (.inr (ihRest hRest))
  | condElse s thenArm other elseArm eif rest ihThen ihElse ihRest =>
    rw [mem_backflow_condElse]
    rcases (mem_branches_condElse s other eif thenArm elseArm rest).mp h with
      rfl | hThen | hElse | hRest
    · cases hMid
      exact .inr (.inl (.inl ⟨rfl, rfl⟩))
    · exact .inl (.inr (ihThen hThen))
    · exact .inr (.inl (.inr (ihElse hElse)))
    · exact .inr (.inr (.inr (ihRest hRest)))

theorem exists_branch_of_elseStart {b : Block} (hRegular : b.Regular) {s : Statement}
    {position : Nat} (h : (s, position) ∈ b.statements.zipIdx start) (hKind : s.kind = .elseStart) :
    ∃ branch ∈ b.branches start, branch.elsePosition? = some position := by
  induction b generalizing start with
  | nil => cases h
  | step first rest ih =>
    obtain ⟨hSimple, hRest⟩ := hRegular
    rw [statements, List.zipIdx_cons, List.mem_cons] at h
    rcases h with h | h
    · cases h
      rw [hKind] at hSimple
      cases hSimple
    · exact ih hRest h
  | cond first thenArm eif rest ihThen ihRest =>
    obtain ⟨hIf, hThen, hEif, hRest⟩ := hRegular
    rw [zipIdx_statements_cond, List.mem_append, List.mem_cons, List.mem_cons] at h
    simp only [mem_branches_cond]
    rcases h with (h | h) | h | h
    · cases h
      rw [hKind] at hIf
      cases hIf
    · grind
    · cases h
      rw [hKind] at hEif
      cases hEif
    · grind
  | condElse first thenArm mid elseArm eif rest ihThen ihElse ihRest =>
    obtain ⟨hIf, hThen, hMid, hElse, hEif, hRest⟩ := hRegular
    rw [zipIdx_statements_condElse] at h
    simp only [mem_branches_condElse, List.mem_append, List.mem_cons] at h ⊢
    rcases h with ((h | h) | h | h) | h | h
    · cases h
      rw [hKind] at hIf
      cases hIf
    · grind
    · cases h
      exact ⟨_, .inl rfl, rfl⟩
    · grind
    · cases h
      rw [hKind] at hEif
      cases hEif
    · grind

/-- A branch is made of an IF, an EIF and maybe an ELSE. -/
theorem kinds_of_mem_branches {b : Block} (hRegular : b.Regular) (h : branch ∈ b.branches start) :
    (∃ s, (s, branch.ifPosition) ∈ b.statements.zipIdx start ∧ s.kind = .ifStart) ∧
      (∃ s, (s, branch.eifPosition) ∈ b.statements.zipIdx start ∧ s.kind = .ifEnd) ∧
      ∀ mid, branch.elsePosition? = some mid →
        ∃ s, (s, mid) ∈ b.statements.zipIdx start ∧ s.kind = .elseStart := by
  induction b generalizing start with
  | nil => cases h
  | step first rest ih =>
    have hRest := ih hRegular.2 h
    rw [statements, List.zipIdx_cons]
    grind
  | cond first thenArm eif rest ihThen ihRest =>
    obtain ⟨hIf, hThen, hEif, hRest⟩ := hRegular
    rw [zipIdx_statements_cond]
    rcases (mem_branches_cond first eif thenArm rest).mp h with rfl | h | h
    · grind
    · have := ihThen hThen h
      grind
    · have := ihRest hRest h
      grind
  | condElse first thenArm mid elseArm eif rest ihThen ihElse ihRest =>
    obtain ⟨hIf, hThen, hMid, hElse, hEif, hRest⟩ := hRegular
    rw [zipIdx_statements_condElse]
    rcases (mem_branches_condElse first mid eif thenArm elseArm rest).mp h with rfl | h | h | h
    · grind
    · have := ihThen hThen h
      grind
    · have := ihElse hElse h
      grind
    · have := ihRest hRest h
      grind

end Block

namespace Body

/-- What kind of statement stands at a position. -/
def kindAt? (b : Body) (position : Nat) : Option Kind :=
  b.statements[position]?.map Statement.kind

theorem kindAt?_eq_some_iff (b : Body) (position : Nat) (kind : Kind) :
    b.kindAt? position = some kind ↔
      ∃ s, (s, position) ∈ b.block.statements.zipIdx ∧ s.kind = kind := by
  simp only [kindAt?, Option.map_eq_some_iff, List.mk_mem_zipIdx_iff_getElem?, statements]

theorem successors_ifPosition {b : Body} {branch : Branch} (h : branch ∈ b.branches) :
    b.successors branch.ifPosition = branch.targets :=
  successors_of_mem_flow (Block.mem_flow_of_mem_branches h)

end Body

end Hinting
