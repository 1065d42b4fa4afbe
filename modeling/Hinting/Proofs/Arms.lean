import Hinting.Proofs.Branches
import Hinting.Proofs.FontProgram

/-!
# Arms as regions of the flow graph

The positions between an IF and its EIF are entered from the IF only and left towards the EIF
only, and no edge leads from one arm to the other. So every walk that leaves an IF goes on
to its EIF.
-/

namespace Hinting

namespace Branch

/-- A position between the IF and the EIF. -/
def Inside (branch : Branch) (position : Nat) : Prop :=
  branch.ifPosition < position ∧ position < branch.eifPosition

/-- What an edge may do at a branch. -/
structure Permits (branch : Branch) (i j : Nat) : Prop where
  exit : branch.Inside i → j ≤ branch.eifPosition
  entry : branch.Inside j → branch.ifPosition ≤ i
  arms : ∀ mid, branch.elsePosition? = some mid → branch.Inside i → branch.Inside j →
    (i < mid ↔ j < mid)

-- An edge from elsewhere reaches a part of the block at its first position only.
theorem permits_of_elsewhere {branch : Branch} {first last i j : Nat}
    (hFirst : first ≤ branch.ifPosition) (hLast : branch.eifPosition < last)
    (h : i < first ∧ (j ≤ first ∨ last ≤ j) ∨ last ≤ i ∧ i < j) : branch.Permits i j := by
  constructor
  · rintro ⟨_, _⟩
    omega
  · rintro ⟨_, _⟩
    omega
  · rintro mid _ ⟨_, _⟩ _
    omega

theorem inside_of_mem_targets {branch : Branch} (h : branch.ifPosition < branch.eifPosition)
    (hMid : ∀ mid, branch.elsePosition? = some mid →
      branch.ifPosition < mid ∧ mid < branch.eifPosition)
    {target : Nat} (hTarget : target ∈ branch.targets) :
    branch.ifPosition < target ∧ target ≤ branch.eifPosition := by
  simp only [targets, List.mem_cons, List.not_mem_nil, or_false] at hTarget
  cases hElse : branch.elsePosition? with
  | none =>
    rw [hElse, Option.getD_none] at hTarget
    split at hTarget <;> omega
  | some mid =>
    rw [hElse, Option.getD_some] at hTarget
    have := hMid mid hElse
    split at hTarget <;> omega

end Branch

namespace Block

variable {start i j : Nat} {exit? : Option Nat} {branch : Branch}

theorem Edge.permitted {b : Block} (h : b.Edge start exit? i j)
    (hExit : ∀ e, exit? = some e → start + b.size ≤ e) (hBranch : branch ∈ b.branches start) :
    branch.Permits i j := by
  induction b generalizing start exit? with
  | nil => cases hBranch
  | step s rest ih =>
    have hInner : branch ∈ rest.branches (start + 1) := hBranch
    have hPosition := position_of_mem_branches hInner
    simp only [size, edge_step, entry?_eq_some_iff] at h hExit
    rcases h with h | h
    · apply Branch.permits_of_elsewhere hPosition.1 hPosition.2.2.1
      grind
    · exact ih h (by grind) hInner
  | cond s thenArm eif rest ihThen ihRest =>
    simp only [size, edge_cond, entry?_eq_some_iff] at h hExit
    have hThen (h : thenArm.Edge (start + 1) (some (start + thenArm.size + 1)) i j) :=
      h.within (by grind)
    have hRest (h : rest.Edge (start + thenArm.size + 2) exit? i j) :=
      h.within (by grind)
    rcases (mem_branches_cond s eif thenArm rest).mp hBranch with rfl | hInner | hInner
    · constructor <;> grind [Branch.Inside]
    · have hPosition := position_of_mem_branches hInner
      by_cases hPart : thenArm.Edge (start + 1) (some (start + thenArm.size + 1)) i j
      · exact ihThen hPart (by grind) hInner
      · apply Branch.permits_of_elsewhere hPosition.1 hPosition.2.2.1
        grind
    · have hPosition := position_of_mem_branches hInner
      by_cases hPart : rest.Edge (start + thenArm.size + 2) exit? i j
      · exact ihRest hPart (by grind) hInner
      · apply Branch.permits_of_elsewhere hPosition.1 hPosition.2.2.1
        grind
  | condElse s thenArm mid elseArm eif rest ihThen ihElse ihRest =>
    simp only [size, edge_condElse, entry?_eq_some_iff] at h hExit
    have hThen (h : thenArm.Edge (start + 1)
        (some (start + thenArm.size + 1 + elseArm.size + 1)) i j) :=
      h.within (by grind)
    have hElse (h : elseArm.Edge (start + thenArm.size + 2)
        (some (start + thenArm.size + 1 + elseArm.size + 1)) i j) :=
      h.within (by grind)
    have hRest (h : rest.Edge (start + thenArm.size + 1 + elseArm.size + 2) exit? i j) :=
      h.within (by grind)
    rcases (mem_branches_condElse s mid eif thenArm elseArm rest).mp hBranch with
      rfl | hInner | hInner | hInner
    · constructor <;> grind [Branch.Inside]
    · have hPosition := position_of_mem_branches hInner
      by_cases hPart : thenArm.Edge (start + 1)
          (some (start + thenArm.size + 1 + elseArm.size + 1)) i j
      · exact ihThen hPart (by grind) hInner
      · apply Branch.permits_of_elsewhere hPosition.1 hPosition.2.2.1
        grind
    · have hPosition := position_of_mem_branches hInner
      by_cases hPart : elseArm.Edge (start + thenArm.size + 2)
          (some (start + thenArm.size + 1 + elseArm.size + 1)) i j
      · exact ihElse hPart (by grind) hInner
      · apply Branch.permits_of_elsewhere hPosition.1 hPosition.2.2.1
        grind
    · have hPosition := position_of_mem_branches hInner
      by_cases hPart : rest.Edge (start + thenArm.size + 1 + elseArm.size + 2) exit? i j
      · exact ihRest hPart (by grind) hInner
      · apply Branch.permits_of_elsewhere hPosition.1 hPosition.2.2.1
        grind

theorem exists_edge_to {b : Block} (hStart : start < j) (hEnd : j < start + b.size) :
    ∃ i, b.Edge start exit? i j := by
  induction b generalizing start exit? with
  | nil =>
    rw [size] at hEnd
    omega
  | step s rest ih =>
    have hRest := @ih (start + 1) exit?
    simp only [size, edge_step, entry?_eq_some_iff] at hEnd ⊢
    grind
  | cond s thenArm eif rest ihThen ihRest =>
    have hThen := @ihThen (start + 1) (some (start + thenArm.size + 1))
    have hRest := @ihRest (start + thenArm.size + 2) exit?
    simp only [size, edge_cond, entry?_eq_some_iff] at hEnd ⊢
    grind
  | condElse s thenArm mid elseArm eif rest ihThen ihElse ihRest =>
    have hThen := @ihThen (start + 1) (some (start + thenArm.size + 1 + elseArm.size + 1))
    have hElse := @ihElse (start + thenArm.size + 2)
      (some (start + thenArm.size + 1 + elseArm.size + 1))
    have hRest := @ihRest (start + thenArm.size + 1 + elseArm.size + 2) exit?
    -- The EIF is reached from the end of the ELSE arm, or from the ELSE if that is empty.
    have hEif := @edge_exit_iff (start + thenArm.size + 2) (start + thenArm.size + 1 + elseArm.size)
      elseArm (start + thenArm.size + 1 + elseArm.size + 1)
    simp only [size, edge_condElse, entry?_eq_some_iff] at hEnd ⊢
    grind

end Block

namespace Body

variable {b : Body} {branch : Branch}

/-- A list of positions along which control can pass. -/
def Walk (b : Body) (path : List Nat) : Prop :=
  path.IsChain fun i j => j ∈ b.successors i

theorem exists_successor {i : Nat} (h : i + 1 < b.size) : ∃ j, j ∈ b.successors i := by
  rcases Block.targets_of_mem_flow (mem_flow_successors (Nat.lt_of_succ_lt h)) with
    ⟨branch, hBranch, rfl⟩ | ⟨j, hOne⟩ | ⟨_, _, hLast⟩
  · rw [successors_ifPosition hBranch]
    exact ⟨_, List.mem_cons_self⟩
  · rw [hOne]
    exact ⟨j, List.mem_singleton_self j⟩
  · rw [size] at h
    omega

theorem reachable_of_lt {position : Nat} (h : position < b.size) :
    Relation.ReflTransGen (fun i j => j ∈ b.successors i) 0 position := by
  induction position using Nat.strongRecOn with
  | ind position ih =>
    rcases Nat.eq_zero_or_pos position with rfl | hPos
    · exact .refl
    obtain ⟨i, hEdge⟩ := @Block.exists_edge_to 0 position none b.block hPos (by
      rwa [Nat.zero_add])
    have hi := (mem_successors_iff b i position).mpr hEdge
    have hForward := forward_of_mem_successors hi
    exact (ih i hForward.1 (by omega)).tail hi

theorem permits_of_mem_successors {i j : Nat} (h : j ∈ b.successors i)
    (hBranch : branch ∈ b.branches) : branch.Permits i j :=
  ((mem_successors_iff b i j).mp h).permitted (by simp) hBranch

theorem position_of_mem_branches (h : branch ∈ b.branches) :
    branch.ifPosition < branch.eifPosition ∧ branch.eifPosition < b.size ∧
      ∀ mid, branch.elsePosition? = some mid →
        branch.ifPosition < mid ∧ mid < branch.eifPosition := by
  obtain ⟨_, hIf, hEif, hMid⟩ := Block.position_of_mem_branches h
  rw [Nat.zero_add] at hEif
  exact ⟨hIf, hEif, hMid⟩

/-- A walk from a position of a branch arrives at the EIF, or has not left the branch yet
and can be continued. -/
theorem Walk.arrives (hBranch : branch ∈ b.branches) {first : Nat} {rest : List Nat}
    (hWalk : b.Walk (first :: rest)) (hIf : branch.ifPosition < first)
    (hEif : first ≤ branch.eifPosition) :
    (∃ front back, first :: rest = front ++ branch.eifPosition :: back ∧
        ∀ position ∈ front, branch.Inside position) ∨
      (∀ position ∈ first :: rest, branch.Inside position) ∧
        first + rest.length < branch.eifPosition ∧
        ∃ next, b.Walk (first :: rest ++ [next]) := by
  rcases Nat.eq_or_lt_of_le hEif with rfl | hBefore
  · exact .inl ⟨[], rest, rfl, by simp⟩
  have hFirst : branch.Inside first := ⟨hIf, hBefore⟩
  induction rest generalizing first with
  | nil =>
    have hSize := (position_of_mem_branches hBranch).2.1
    obtain ⟨next, hNext⟩ := exists_successor (b := b) (i := first) (by omega)
    refine .inr ⟨by simpa using hFirst, hBefore, next, ?_⟩
    simpa [Walk] using hNext
  | cons second rest ih =>
    obtain ⟨hStep, hRest⟩ := List.isChain_cons_cons.mp hWalk
    have hForward := forward_of_mem_successors hStep
    have hStays := (permits_of_mem_successors hStep hBranch).exit hFirst
    rcases Nat.eq_or_lt_of_le hStays with rfl | hSecond
    · exact .inl ⟨[first], rest, rfl, by simpa using hFirst⟩
    rcases ih hRest (by omega) hStays hSecond ⟨by omega, hSecond⟩ with
      ⟨front, back, hPath, hFront⟩ | ⟨hAll, hLength, next, hNext⟩
    · exact .inl ⟨first :: front, back, by rw [hPath, List.cons_append],
        List.forall_mem_cons.mpr ⟨hFirst, hFront⟩⟩
    · refine .inr ⟨List.forall_mem_cons.mpr ⟨hFirst, hAll⟩, ?_, next, ?_⟩
      · rw [List.length_cons]
        omega
      · exact List.isChain_cons_cons.mpr ⟨hStep, hNext⟩

/-- Branches nest, one for each IF, and their arms have one entry and one exit. -/
structure Structured (b : Body) : Prop where
  ifs : b.branches.map (·.ifPosition) =
    (b.statements.zipIdx.filter fun entry => entry.1.kind = .ifStart).map Prod.snd
  marks : ∀ branch ∈ b.branches, b.kindAt? branch.ifPosition = some .ifStart ∧
    b.kindAt? branch.eifPosition = some .ifEnd ∧
    ∀ mid, branch.elsePosition? = some mid → b.kindAt? mid = some .elseStart
  bounds : ∀ branch ∈ b.branches, branch.ifPosition < branch.eifPosition ∧
    ∀ mid, branch.elsePosition? = some mid → branch.ifPosition < mid ∧ mid < branch.eifPosition
  nested : ∀ branch ∈ b.branches, ∀ other ∈ b.branches, branch = other ∨
    branch.eifPosition < other.ifPosition ∨ other.eifPosition < branch.ifPosition ∨
    branch.Nests other ∨ other.Nests branch
  -- A walk from the IF that is not yet at the EIF is inside of the branch, and it can be
  -- continued, but only as often as there are positions left.
  leads : ∀ branch ∈ b.branches, b.successors branch.ifPosition = branch.targets ∧
    ∀ target ∈ branch.targets, ∀ rest, b.Walk (target :: rest) →
      (∃ front back, target :: rest = front ++ branch.eifPosition :: back ∧
          ∀ position ∈ front, branch.Inside position) ∨
        (∀ position ∈ target :: rest, branch.Inside position) ∧
          target + rest.length < branch.eifPosition ∧
          ∃ next, b.Walk (target :: rest ++ [next])
  entered : ∀ branch ∈ b.branches, ∀ i j, j ∈ b.successors i → branch.Inside j →
    branch.Inside i ∨ i = branch.ifPosition
  apart : ∀ branch ∈ b.branches, ∀ mid, branch.elsePosition? = some mid → ∀ i j,
    j ∈ b.successors i → branch.Inside i → branch.Inside j → (i < mid ↔ j < mid)
  reached : ∀ position < b.size, Relation.ReflTransGen (fun i j => j ∈ b.successors i) 0 position

/-- The arms of an accepted list are regions of its flow graph with one entry and one exit. -/
theorem structured_of_ofStatements {tag : String} {statements : List Statement}
    (h : ofStatements tag statements = .ok b) : b.statements = statements ∧ b.Structured := by
  obtain ⟨_, hBlock⟩ := (ofStatements_eq_ok_iff tag statements b).mp h
  have hRegular := Block.regular_of_ofStatements hBlock
  refine ⟨statements_of_ofStatements h, ?_⟩
  constructor
  · exact Block.map_ifPosition_branches hRegular 0
  · intro branch hBranch
    simp only [kindAt?_eq_some_iff]
    exact Block.kinds_of_mem_branches hRegular hBranch
  · intro branch hBranch
    obtain ⟨hIf, _, hMid⟩ := position_of_mem_branches hBranch
    exact ⟨hIf, hMid⟩
  · intro branch hBranch other hOther
    rcases Block.mem_branches_trichotomy hBranch hOther with
      hEqual | ⟨_, hApart | hNests⟩ | ⟨_, hApart | hNests⟩
    · exact .inl hEqual
    · exact .inr (.inl hApart)
    · exact .inr (.inr (.inr (.inl hNests)))
    · exact .inr (.inr (.inl hApart))
    · exact .inr (.inr (.inr (.inr hNests)))
  · intro branch hBranch
    refine ⟨successors_ifPosition hBranch, fun target hTarget rest hWalk => ?_⟩
    obtain ⟨hIf, _, hMid⟩ := position_of_mem_branches hBranch
    have hInside := Branch.inside_of_mem_targets hIf hMid hTarget
    exact hWalk.arrives hBranch hInside.1 hInside.2
  · intro branch hBranch i j hEdge hInside
    have hEntry := (permits_of_mem_successors hEdge hBranch).entry hInside
    have hForward := forward_of_mem_successors hEdge
    rcases Nat.eq_or_lt_of_le hEntry with hIf | hIf
    · exact .inr hIf.symm
    · exact .inl ⟨hIf, Nat.lt_trans hForward.1 hInside.2⟩
  · intro branch hBranch mid hMid i j hEdge
    exact (permits_of_mem_successors hEdge hBranch).arms mid hMid
  · intro position hPosition
    exact reachable_of_lt hPosition

theorem structured_of_ofStatements_nested_if :
    ∃ b, ofStatements "glyf" ([Mnemonic.IF, .IF, .ELSE, .EIF, .ELSE, .IF, .EIF, .EIF].zipIdx.map
        fun entry => { mnemonic := entry.1, index := entry.2 }) = .ok b ∧
      b.branches = [⟨0, some 4, 7⟩, ⟨1, some 2, 3⟩, ⟨5, none, 6⟩] ∧ b.Structured := by
  have hEvaluated : (ofStatements "glyf"
      ([Mnemonic.IF, .IF, .ELSE, .EIF, .ELSE, .IF, .EIF, .EIF].zipIdx.map
        fun entry => { mnemonic := entry.1, index := entry.2 })).toOption.map branches =
      some [⟨0, some 4, 7⟩, ⟨1, some 2, 3⟩, ⟨5, none, 6⟩] := by
    decide +kernel
  obtain ⟨b, hBody, hBranches⟩ := Option.map_eq_some_iff.mp hEvaluated
  have hOk := Action.eq_ok_of_toOption hBody
  exact ⟨b, hOk, hBranches, (structured_of_ofStatements hOk).2⟩

end Body

end Hinting
