import Hinting.Proofs.Linking

/-!
# The shape of the flow graph

Control goes forward. An IF has two successors, every other statement but the last has one,
and the predecessors are the converse of the successors.
-/

namespace Hinting

namespace Body

variable {b : Body} {i j : Nat} {branch : Branch}

theorem predecessors_of_le (h : b.size ≤ j) : b.predecessors j = [] := by
  have hLength : b.predecessorLists.length ≤ j := by
    rwa [predecessorLists, Block.length_predecessors]
  rw [predecessors, List.getElem?_eq_none hLength, Option.getD_none]

theorem mem_predecessors_iff (b : Body) (i j : Nat) :
    i ∈ b.predecessors j ↔ j ∈ b.successors i := by
  rw [mem_successors_iff]
  rcases Nat.lt_or_ge j b.size with hj | hj
  · rw [@Block.mem_sources_iff 0 i j none none _ _ (mem_backflow_predecessors hj) (by simp)]
    simp
  · rw [predecessors_of_le hj, ← mem_successors_iff]
    constructor
    · intro h
      cases h
    · intro h
      exact absurd (forward_of_mem_successors h).2 (Nat.not_lt.mpr hj)

theorem nodup_predecessors (b : Body) (j : Nat) : (b.predecessors j).Nodup := by
  rcases Nat.lt_or_ge j b.size with hj | hj
  · exact Block.nodup_sources (mem_backflow_predecessors hj)
  · rw [predecessors_of_le hj]
    exact .nil

theorem branch?_eq_some_iff (b : Body) (i : Nat) (branch : Branch) :
    b.branch? i = some branch ↔ branch ∈ b.branches ∧ branch.ifPosition = i := by
  constructor
  · intro h
    have hFound := List.find?_some h
    exact ⟨List.mem_of_find?_eq_some h, by simpa using hFound⟩
  · rintro ⟨hBranch, rfl⟩
    cases hFound : b.branch? branch.ifPosition with
    | none => simpa using List.find?_eq_none.mp hFound branch hBranch
    | some other =>
      have hOther := List.mem_of_find?_eq_some hFound
      have hEq : other.ifPosition = branch.ifPosition := by simpa using List.find?_some hFound
      rw [Block.eq_of_ifPosition_eq hOther hBranch hEq]

theorem kindAt?_eq_ifStart_iff (h : b.block.Regular) (i : Nat) :
    b.kindAt? i = some .ifStart ↔ ∃ branch ∈ b.branches, branch.ifPosition = i := by
  rw [kindAt?_eq_some_iff, branches, ← List.mem_map, Block.map_ifPosition_branches h, List.mem_map]
  constructor
  · rintro ⟨s, hMem, hKind⟩
    exact ⟨(s, i), List.mem_filter.mpr ⟨hMem, decide_eq_true hKind⟩, rfl⟩
  · rintro ⟨⟨s, position⟩, hMem, rfl⟩
    obtain ⟨hMem, hKind⟩ := List.mem_filter.mp hMem
    exact ⟨s, hMem, of_decide_eq_true hKind⟩

/-- The shape of the flow graph, statement by statement. -/
structure Shaped (b : Body) : Prop where
  forward : ∀ i j, j ∈ b.successors i → i < j ∧ j < b.size
  last : ∀ i, i + 1 = b.size → b.successors i = []
  ifs : ∀ i, b.kindAt? i = some .ifStart →
    ∃ branch ∈ b.branches, branch.ifPosition = i ∧ b.successors i = branch.targets
  others : ∀ i, i + 1 < b.size → b.kindAt? i ≠ some .ifStart → ∃ j, b.successors i = [j]
  converse : ∀ i j, i ∈ b.predecessors j ↔ j ∈ b.successors i
  distinct : ∀ j, (b.predecessors j).Nodup
  elses : ∀ j, b.kindAt? j = some .elseStart →
    ∃ branch ∈ b.branches, branch.elsePosition? = some j ∧ b.predecessors j = [branch.ifPosition]
  sorted : b.branches.Pairwise fun earlier later => earlier.ifPosition < later.ifPosition
  found : ∀ i branch, b.branch? i = some branch ↔ branch ∈ b.branches ∧ branch.ifPosition = i
  finds : ∀ i, (b.branch? i).isSome = true ↔ b.kindAt? i = some .ifStart

theorem shaped_of_regular (h : b.block.Regular) : b.Shaped where
  forward _ _ := forward_of_mem_successors
  last i hLast := successors_of_mem_flow (Block.mem_flow_last (Nat.zero_le i) (by
    rw [Nat.zero_add]
    exact hLast))
  ifs i hKind := by
    obtain ⟨branch, hBranch, rfl⟩ := (kindAt?_eq_ifStart_iff h i).mp hKind
    exact ⟨branch, hBranch, rfl, successors_ifPosition hBranch⟩
  others i hLess hKind := by
    rcases Block.targets_of_mem_flow (mem_flow_successors (Nat.lt_of_succ_lt hLess)) with
      hBranch | hOne | ⟨_, _, hLast⟩
    · exact absurd ((kindAt?_eq_ifStart_iff h i).mpr hBranch) hKind
    · exact hOne
    · rw [size] at hLess
      omega
  converse := b.mem_predecessors_iff
  distinct := b.nodup_predecessors
  elses j hKind := by
    obtain ⟨s, hMem, hKind⟩ := (kindAt?_eq_some_iff b j .elseStart).mp hKind
    obtain ⟨branch, hBranch, hElse⟩ := Block.exists_branch_of_elseStart h hMem hKind
    exact ⟨branch, hBranch, hElse,
      predecessors_of_mem_backflow (Block.mem_backflow_of_mem_branches hBranch hElse)⟩
  sorted := (Block.pairwise_branches b.block 0).imp And.left
  found := b.branch?_eq_some_iff
  finds i := by
    rw [kindAt?_eq_ifStart_iff h, Option.isSome_iff_exists]
    simp only [branch?_eq_some_iff]

/-- The graph of an accepted list has this shape. For any list, linking it with all positions
checked comes to the same graph or refusal, and no position is ever out of range. -/
theorem shaped_of_ofStatements (tag : String) (statements : List Statement) :
    (∀ b, ofStatements tag statements = .ok b → b.statements = statements ∧ b.Shaped) ∧
      Linker.run tag statements =
        ((ofStatements tag statements).map graph).mapError LinkError.refused ∧
      Linker.run tag statements ≠ .error .outOfRange := by
  have hRun := Linker.run_eq tag statements
  refine ⟨fun b hBody => ?_, hRun, ?_⟩
  · obtain ⟨_, hBlock⟩ := (ofStatements_eq_ok_iff tag statements b).mp hBody
    have hRegular := Block.regular_of_ofStatements hBlock
    exact ⟨statements_of_ofStatements hBody, shaped_of_regular hRegular⟩
  · rw [hRun]
    cases ofStatements tag statements with
    | ok b => simp [Except.map, Except.mapError]
    | error e => simp [Except.map, Except.mapError]

theorem shaped_of_ofStatements_empty_arms :
    ∃ b, ofStatements "glyf" ([Mnemonic.IF, .ELSE, .SVTCA, .EIF, .IF, .EIF, .POP].zipIdx.map
        fun entry => { mnemonic := entry.1, index := entry.2 }) = .ok b ∧
      b.successorLists = [[3, 1], [2], [3], [4], [5, 5], [6], []] ∧ b.Shaped := by
  have hEvaluated : (ofStatements "glyf"
      ([Mnemonic.IF, .ELSE, .SVTCA, .EIF, .IF, .EIF, .POP].zipIdx.map
        fun entry => { mnemonic := entry.1, index := entry.2 })).toOption.map successorLists =
      some [[3, 1], [2], [3], [4], [5, 5], [6], []] := by
    decide +kernel
  obtain ⟨b, hBody, hSuccessors⟩ := Option.map_eq_some_iff.mp hEvaluated
  have hOk := Action.eq_ok_of_toOption hBody
  exact ⟨b, hOk, hSuccessors, ((shaped_of_ofStatements "glyf" _).1 b hOk).2⟩

end Body

end Hinting
