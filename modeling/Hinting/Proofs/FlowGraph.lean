import Hinting.Proofs.DispatchOrder
import Mathlib.Logic.Relation

/-!
# The flow graph of a block

The edges of a block are those of its parts and a few of its own. `mem_flow_cond` and the
lemmas beside it say this once; all else follows by induction on the block. Control only
goes forward, and a block is left from its last statement only.
-/

namespace Hinting.Block

theorem length_successors (b : Block) (start : Nat) (exit? : Option Nat) :
    (b.successors start exit?).length = b.size := by
  induction b generalizing start exit? with
  | nil => rfl
  | step s rest ih => simp [successors, size, ih]
  | cond s thenArm eif rest ihThen ihRest =>
    simp [successors, size, ihThen, ihRest]
    omega
  | condElse s thenArm mid elseArm eif rest ihThen ihElse ihRest =>
    simp [successors, size, ihThen, ihElse, ihRest]
    omega

theorem entry?_eq_some_iff (b : Block) (start : Nat) (exit? : Option Nat) (j : Nat) :
    b.entry? start exit? = some j ↔ b.size ≠ 0 ∧ j = start ∨ b.size = 0 ∧ exit? = some j := by
  cases b <;> simp [size, entry?, eq_comm]

/-- The successors of each statement with its position. -/
def flow (b : Block) (start : Nat) (exit? : Option Nat) : List (List Nat × Nat) :=
  (b.successors start exit?).zipIdx start

section Flow

variable {start i j : Nat} {exit? : Option Nat} {targets : List Nat}

theorem position_of_mem_flow {b : Block} (h : (targets, i) ∈ b.flow start exit?) :
    start ≤ i ∧ i < start + b.size := by
  obtain ⟨hStart, hEnd, _⟩ := List.mem_zipIdx h
  rw [length_successors] at hEnd
  exact ⟨hStart, by omega⟩

theorem mem_flow_step (s : Statement) (rest : Block) :
    (targets, i) ∈ (step s rest).flow start exit? ↔
      targets = (rest.entry? (start + 1) exit?).toList ∧ i = start ∨
        (targets, i) ∈ rest.flow (start + 1) exit? := by
  simp [flow, successors, List.zipIdx_cons]

theorem mem_flow_cond (s eif : Statement) (thenArm rest : Block) :
    (targets, i) ∈ (cond s thenArm eif rest).flow start exit? ↔
      (targets = (thenArm.entry? (start + 1) (some (start + thenArm.size + 1))).toList ++
          [start + thenArm.size + 1] ∧ i = start ∨
        (targets, i) ∈ thenArm.flow (start + 1) (some (start + thenArm.size + 1))) ∨
      targets = (rest.entry? (start + thenArm.size + 2) exit?).toList ∧
          i = start + thenArm.size + 1 ∨
        (targets, i) ∈ rest.flow (start + thenArm.size + 2) exit? := by
  simp only [flow, successors, List.cons_append, List.zipIdx_cons, List.zipIdx_append,
    length_successors, List.mem_cons, List.mem_append, Prod.mk.injEq, Nat.add_right_comm start 1,
    or_assoc]

theorem mem_flow_condElse (s mid eif : Statement) (thenArm elseArm rest : Block) :
    (targets, i) ∈ (condElse s thenArm mid elseArm eif rest).flow start exit? ↔
      (targets = (thenArm.entry? (start + 1)
            (some (start + thenArm.size + 1 + elseArm.size + 1))).toList ++
          [start + thenArm.size + 1] ∧ i = start ∨
        (targets, i) ∈ thenArm.flow (start + 1)
          (some (start + thenArm.size + 1 + elseArm.size + 1))) ∨
      (targets = (elseArm.entry? (start + thenArm.size + 2)
            (some (start + thenArm.size + 1 + elseArm.size + 1))).toList ∧
          i = start + thenArm.size + 1 ∨
        (targets, i) ∈ elseArm.flow (start + thenArm.size + 2)
          (some (start + thenArm.size + 1 + elseArm.size + 1))) ∨
      targets = (rest.entry? (start + thenArm.size + 1 + elseArm.size + 2) exit?).toList ∧
          i = start + thenArm.size + 1 + elseArm.size + 1 ∨
        (targets, i) ∈ rest.flow (start + thenArm.size + 1 + elseArm.size + 2) exit? := by
  simp only [flow, successors, List.cons_append, List.zipIdx_cons, List.zipIdx_append,
    List.append_assoc, length_successors, List.mem_cons, List.mem_append, Prod.mk.injEq,
    Nat.add_right_comm start 1, Nat.add_right_comm (start + thenArm.size + 1) 1, or_assoc]

/-- Control passes from one position to another, inside of a block or out of it. -/
def Edge (b : Block) (start : Nat) (exit? : Option Nat) (i j : Nat) : Prop :=
  ∃ targets, (targets, i) ∈ b.flow start exit? ∧ j ∈ targets

@[simp]
theorem not_edge_nil : ¬nil.Edge start exit? i j := by
  rintro ⟨targets, hMem, _⟩
  cases hMem

theorem edge_step (s : Statement) (rest : Block) :
    (step s rest).Edge start exit? i j ↔
      i = start ∧ rest.entry? (start + 1) exit? = some j ∨ rest.Edge (start + 1) exit? i j := by
  simp only [Edge, mem_flow_step, or_and_right, exists_or, and_assoc, exists_eq_left,
    Option.mem_toList]

theorem edge_cond (s eif : Statement) (thenArm rest : Block) :
    (cond s thenArm eif rest).Edge start exit? i j ↔
      i = start ∧ (thenArm.entry? (start + 1) (some (start + thenArm.size + 1)) = some j ∨
        j = start + thenArm.size + 1) ∨
      thenArm.Edge (start + 1) (some (start + thenArm.size + 1)) i j ∨
      i = start + thenArm.size + 1 ∧ rest.entry? (start + thenArm.size + 2) exit? = some j ∨
      rest.Edge (start + thenArm.size + 2) exit? i j := by
  simp only [Edge, mem_flow_cond, or_and_right, exists_or, and_assoc, exists_eq_left, or_assoc,
    List.mem_append, List.mem_singleton, Option.mem_toList]

theorem edge_condElse (s mid eif : Statement) (thenArm elseArm rest : Block) :
    (condElse s thenArm mid elseArm eif rest).Edge start exit? i j ↔
      i = start ∧ (thenArm.entry? (start + 1)
          (some (start + thenArm.size + 1 + elseArm.size + 1)) = some j ∨
        j = start + thenArm.size + 1) ∨
      thenArm.Edge (start + 1) (some (start + thenArm.size + 1 + elseArm.size + 1)) i j ∨
      i = start + thenArm.size + 1 ∧ elseArm.entry? (start + thenArm.size + 2)
          (some (start + thenArm.size + 1 + elseArm.size + 1)) = some j ∨
      elseArm.Edge (start + thenArm.size + 2)
        (some (start + thenArm.size + 1 + elseArm.size + 1)) i j ∨
      i = start + thenArm.size + 1 + elseArm.size + 1 ∧
        rest.entry? (start + thenArm.size + 1 + elseArm.size + 2) exit? = some j ∨
      rest.Edge (start + thenArm.size + 1 + elseArm.size + 2) exit? i j := by
  simp only [Edge, mem_flow_condElse, or_and_right, exists_or, and_assoc, exists_eq_left, or_assoc,
    List.mem_append, List.mem_singleton, Option.mem_toList]

theorem Edge.position {b : Block} (h : b.Edge start exit? i j) :
    start ≤ i ∧ i < start + b.size := by
  obtain ⟨targets, hMem, _⟩ := h
  exact position_of_mem_flow hMem

/-- Control goes forward, and leaves a block from its last statement only. -/
theorem Edge.forward {b : Block} (h : b.Edge start exit? i j)
    (hExit : ∀ e, exit? = some e → start + b.size ≤ e) :
    i < j ∧ (j < start + b.size ∨ exit? = some j ∧ i + 1 = start + b.size) := by
  induction b generalizing start exit? with
  | nil => exact (not_edge_nil h).elim
  | step s rest ih =>
    simp only [size, edge_step, entry?_eq_some_iff] at h hExit ⊢
    grind
  | cond s thenArm eif rest ihThen ihRest =>
    simp only [size, edge_cond, entry?_eq_some_iff] at h hExit ⊢
    grind
  | condElse s thenArm mid elseArm eif rest ihThen ihElse ihRest =>
    simp only [size, edge_condElse, entry?_eq_some_iff] at h hExit ⊢
    grind

theorem Edge.within {b : Block} (h : b.Edge start exit? i j)
    (hExit : ∀ e, exit? = some e → start + b.size ≤ e) :
    (start ≤ i ∧ i < start + b.size) ∧ i < j ∧
      (j < start + b.size ∨ exit? = some j ∧ i + 1 = start + b.size) :=
  ⟨h.position, h.forward hExit⟩

theorem entry?_of_size_eq_zero {b : Block} (h : b.size = 0) : b.entry? start exit? = exit? := by
  cases b <;> simp_all [size, entry?]

theorem entry?_of_size_ne_zero {b : Block} (h : b.size ≠ 0) :
    b.entry? start exit? = some start := by
  cases b <;> simp_all [size, entry?]

/-- The last statement passes control out of the block. -/
theorem mem_flow_last {b : Block} (hStart : start ≤ i) (hLast : i + 1 = start + b.size) :
    (exit?.toList, i) ∈ b.flow start exit? := by
  induction b generalizing start with
  | nil =>
    rw [size] at hLast
    omega
  | step s rest ih =>
    rw [size] at hLast
    rw [mem_flow_step]
    by_cases hRest : rest.size = 0
    · exact .inl ⟨by rw [entry?_of_size_eq_zero hRest], by omega⟩
    · exact .inr (ih (by omega) (by omega))
  | cond s thenArm eif rest ihThen ihRest =>
    rw [size] at hLast
    rw [mem_flow_cond]
    by_cases hRest : rest.size = 0
    · exact .inr (.inl ⟨by rw [entry?_of_size_eq_zero hRest], by omega⟩)
    · exact .inr (.inr (ihRest (by omega) (by omega)))
  | condElse s thenArm mid elseArm eif rest ihThen ihElse ihRest =>
    rw [size] at hLast
    rw [mem_flow_condElse]
    by_cases hRest : rest.size = 0
    · exact .inr (.inr (.inl ⟨by rw [entry?_of_size_eq_zero hRest], by omega⟩))
    · exact .inr (.inr (.inr (ihRest (by omega) (by omega))))

theorem entry?_toList (b : Block) (start : Nat) (exit? : Option Nat) :
    (b.entry? start exit?).toList = if b.size = 0 then exit?.toList else [start] := by
  cases b <;> simp [size, entry?]

theorem entry?_toList_cases (b : Block) (start : Nat) (exit? : Option Nat) :
    (∃ j, (b.entry? start exit?).toList = [j]) ∨
      (b.entry? start exit?).toList = [] ∧ exit? = none ∧ b.size = 0 := by
  rw [entry?_toList]
  split
  · cases exit? with
    | none => exact .inr ⟨rfl, rfl, ‹b.size = 0›⟩
    | some e => exact .inl ⟨e, rfl⟩
  · exact .inl ⟨start, rfl⟩

/-- Every statement but an IF has one successor, unless control ends there. -/
theorem targets_of_mem_flow {b : Block} (h : (targets, i) ∈ b.flow start exit?) :
    (∃ branch ∈ b.branches start, branch.ifPosition = i) ∨ (∃ j, targets = [j]) ∨
      targets = [] ∧ exit? = none ∧ i + 1 = start + b.size := by
  induction b generalizing start exit? with
  | nil => cases h
  | step s rest ih =>
    simp only [mem_flow_step, branches, size] at h ⊢
    grind [entry?_toList_cases]
  | cond s thenArm eif rest ihThen ihRest =>
    simp only [mem_flow_cond, branches, size, List.mem_append, List.mem_cons] at h ⊢
    grind [entry?_toList_cases]
  | condElse s thenArm mid elseArm eif rest ihThen ihElse ihRest =>
    simp only [mem_flow_condElse, branches, size, List.mem_append, List.mem_cons] at h ⊢
    grind [entry?_toList_cases]

theorem edge_exit_iff {b : Block} {e : Nat} (hExit : start + b.size ≤ e) :
    b.Edge start (some e) i e ↔ start ≤ i ∧ i + 1 = start + b.size := by
  constructor
  · intro h
    have hForward := h.forward fun e' he' => Option.some.inj he' ▸ hExit
    exact ⟨h.position.1, by omega⟩
  · rintro ⟨hStart, hLast⟩
    exact ⟨[e], mem_flow_last hStart hLast, List.mem_singleton_self e⟩

end Flow

theorem length_predecessors (b : Block) (start : Nat) (source? : Option Nat) :
    (b.predecessors start source?).length = b.size := by
  induction b generalizing start source? with
  | nil => rfl
  | step s rest ih => simp [predecessors, size, ih]
  | cond s thenArm eif rest ihThen ihRest =>
    simp [predecessors, size, ihThen, ihRest]
    omega
  | condElse s thenArm mid elseArm eif rest ihThen ihElse ihRest =>
    simp [predecessors, size, ihThen, ihElse, ihRest]
    omega

/-- The predecessors of each statement with its position. -/
def backflow (b : Block) (start : Nat) (source? : Option Nat) : List (List Nat × Nat) :=
  (b.predecessors start source?).zipIdx start

section Backflow

variable {start i j : Nat} {source? exit? : Option Nat} {sources : List Nat}

theorem position_of_mem_backflow {b : Block} (h : (sources, j) ∈ b.backflow start source?) :
    start ≤ j ∧ j < start + b.size := by
  obtain ⟨hStart, hEnd, _⟩ := List.mem_zipIdx h
  rw [length_predecessors] at hEnd
  exact ⟨hStart, by omega⟩

theorem mem_backflow_step (s : Statement) (rest : Block) :
    (sources, j) ∈ (step s rest).backflow start source? ↔
      sources = source?.toList ∧ j = start ∨
        (sources, j) ∈ rest.backflow (start + 1) (some start) := by
  simp [backflow, predecessors, List.zipIdx_cons]

theorem mem_backflow_cond (s eif : Statement) (thenArm rest : Block) :
    (sources, j) ∈ (cond s thenArm eif rest).backflow start source? ↔
      (sources = source?.toList ∧ j = start ∨
        (sources, j) ∈ thenArm.backflow (start + 1) (some start)) ∨
      sources = (if thenArm.size = 0 then [start] else [start + thenArm.size, start]) ∧
          j = start + thenArm.size + 1 ∨
        (sources, j) ∈ rest.backflow (start + thenArm.size + 2)
          (some (start + thenArm.size + 1)) := by
  simp only [backflow, predecessors, List.cons_append, List.zipIdx_cons, List.zipIdx_append,
    length_predecessors, List.mem_cons, List.mem_append, Prod.mk.injEq,
    Nat.add_right_comm start 1, or_assoc]

theorem mem_backflow_condElse (s mid eif : Statement) (thenArm elseArm rest : Block) :
    (sources, j) ∈ (condElse s thenArm mid elseArm eif rest).backflow start source? ↔
      (sources = source?.toList ∧ j = start ∨
        (sources, j) ∈ thenArm.backflow (start + 1) (some start)) ∨
      (sources = [start] ∧ j = start + thenArm.size + 1 ∨
        (sources, j) ∈ elseArm.backflow (start + thenArm.size + 2)
          (some (start + thenArm.size + 1))) ∨
      sources = [start + thenArm.size, start + thenArm.size + 1 + elseArm.size] ∧
          j = start + thenArm.size + 1 + elseArm.size + 1 ∨
        (sources, j) ∈ rest.backflow (start + thenArm.size + 1 + elseArm.size + 2)
          (some (start + thenArm.size + 1 + elseArm.size + 1)) := by
  simp only [backflow, predecessors, List.cons_append, List.zipIdx_cons, List.zipIdx_append,
    List.append_assoc, length_predecessors, List.mem_cons, List.mem_append, Prod.mk.injEq,
    Nat.add_right_comm start 1, Nat.add_right_comm (start + thenArm.size + 1) 1, or_assoc]

theorem not_edge_start {b : Block} (hExit : ∀ e, exit? = some e → start + b.size ≤ e) :
    ¬b.Edge start exit? i start := fun h => by
  have hPosition := h.position
  have hForward := h.forward hExit
  omega

/-- The predecessors of a statement are the sources of the edges to it, and for the first
statement the one from which the block is entered. -/
theorem mem_sources_iff {b : Block} (h : (sources, j) ∈ b.backflow start source?)
    (hExit : ∀ e, exit? = some e → start + b.size ≤ e) :
    i ∈ sources ↔ source? = some i ∧ j = start ∨ b.Edge start exit? i j := by
  induction b generalizing start source? exit? with
  | nil => cases h
  | step s rest ih =>
    have hRestExit : ∀ e, exit? = some e → start + 1 + rest.size ≤ e := by grind [size]
    rcases (mem_backflow_step s rest).mp h with ⟨rfl, rfl⟩ | hRest
    · simp [not_edge_start hExit]
    · have hPosition := position_of_mem_backflow hRest
      rw [ih hRest hRestExit, edge_step, entry?_eq_some_iff]
      grind
  | cond s thenArm eif rest ihThen ihRest =>
    have hThenExit : ∀ e, some (start + thenArm.size + 1) = some e →
        start + 1 + thenArm.size ≤ e := by grind
    have hRestExit : ∀ e, exit? = some e → start + thenArm.size + 2 + rest.size ≤ e := by
      grind [size]
    have hThenEdge (h : thenArm.Edge (start + 1) (some (start + thenArm.size + 1)) i j) :=
      h.within hThenExit
    have hRestEdge (h : rest.Edge (start + thenArm.size + 2) exit? i j) :=
      h.within hRestExit
    rcases (mem_backflow_cond s eif thenArm rest).mp h with
      (⟨rfl, rfl⟩ | hThen) | ⟨rfl, rfl⟩ | hRest
    · simp [not_edge_start hExit]
    · have hPosition := position_of_mem_backflow hThen
      rw [ihThen hThen hThenExit, edge_cond, entry?_eq_some_iff, entry?_eq_some_iff]
      grind
    · rw [edge_cond, entry?_eq_some_iff, entry?_eq_some_iff, edge_exit_iff (by omega)]
      grind
    · have hPosition := position_of_mem_backflow hRest
      rw [ihRest hRest hRestExit, edge_cond, entry?_eq_some_iff, entry?_eq_some_iff]
      grind
  | condElse s thenArm mid elseArm eif rest ihThen ihElse ihRest =>
    have hThenExit : ∀ e, some (start + thenArm.size + 1 + elseArm.size + 1) = some e →
        start + 1 + thenArm.size ≤ e := by grind
    have hElseExit : ∀ e, some (start + thenArm.size + 1 + elseArm.size + 1) = some e →
        start + thenArm.size + 2 + elseArm.size ≤ e := by grind
    have hRestExit : ∀ e, exit? = some e →
        start + thenArm.size + 1 + elseArm.size + 2 + rest.size ≤ e := by
      grind [size]
    have hThenEdge (h : thenArm.Edge (start + 1)
        (some (start + thenArm.size + 1 + elseArm.size + 1)) i j) :=
      h.within hThenExit
    have hElseEdge (h : elseArm.Edge (start + thenArm.size + 2)
        (some (start + thenArm.size + 1 + elseArm.size + 1)) i j) :=
      h.within hElseExit
    have hRestEdge (h : rest.Edge (start + thenArm.size + 1 + elseArm.size + 2) exit? i j) :=
      h.within hRestExit
    rcases (mem_backflow_condElse s mid eif thenArm elseArm rest).mp h with
      (⟨rfl, rfl⟩ | hThen) | (⟨rfl, rfl⟩ | hElse) | ⟨rfl, rfl⟩ | hRest
    · simp [not_edge_start hExit]
    · have hPosition := position_of_mem_backflow hThen
      rw [ihThen hThen hThenExit, edge_condElse]
      simp only [entry?_eq_some_iff]
      grind
    · rw [edge_condElse]
      simp only [entry?_eq_some_iff]
      grind
    · have hPosition := position_of_mem_backflow hElse
      rw [ihElse hElse hElseExit, edge_condElse]
      simp only [entry?_eq_some_iff]
      grind
    · rw [edge_condElse, edge_exit_iff (by omega), edge_exit_iff (by omega)]
      simp only [entry?_eq_some_iff]
      grind
    · have hPosition := position_of_mem_backflow hRest
      rw [ihRest hRest hRestExit, edge_condElse]
      simp only [entry?_eq_some_iff]
      grind

theorem nodup_sources {b : Block} (h : (sources, j) ∈ b.backflow start source?) :
    sources.Nodup := by
  induction b generalizing start source? with
  | nil => cases h
  | step s rest ih =>
    rcases (mem_backflow_step s rest).mp h with ⟨rfl, _⟩ | hRest
    · cases source? <;> simp
    · exact ih hRest
  | cond s thenArm eif rest ihThen ihRest =>
    rcases (mem_backflow_cond s eif thenArm rest).mp h with
      (⟨rfl, _⟩ | hThen) | ⟨rfl, _⟩ | hRest
    · cases source? <;> simp
    · exact ihThen hThen
    · split <;> simp [*]
    · exact ihRest hRest
  | condElse s thenArm mid elseArm eif rest ihThen ihElse ihRest =>
    rcases (mem_backflow_condElse s mid eif thenArm elseArm rest).mp h with
      (⟨rfl, _⟩ | hThen) | (⟨rfl, _⟩ | hElse) | ⟨rfl, _⟩ | hRest
    · cases source? <;> simp
    · exact ihThen hThen
    · simp
    · exact ihElse hElse
    · simp
      omega
    · exact ihRest hRest

end Backflow

end Hinting.Block

namespace Hinting.Body

variable {b : Body} {i j : Nat}

theorem successors_of_mem_flow {targets : List Nat} (h : (targets, i) ∈ b.block.flow 0 none) :
    b.successors i = targets := by
  rw [Block.flow, List.mk_mem_zipIdx_iff_getElem?] at h
  rw [successors, successorLists, h, Option.getD_some]

theorem predecessors_of_mem_backflow {sources : List Nat}
    (h : (sources, j) ∈ b.block.backflow 0 none) : b.predecessors j = sources := by
  rw [Block.backflow, List.mk_mem_zipIdx_iff_getElem?] at h
  rw [predecessors, predecessorLists, h, Option.getD_some]

theorem mem_flow_successors (h : i < b.size) : (b.successors i, i) ∈ b.block.flow 0 none := by
  have hLength : i < b.successorLists.length := by
    rwa [successorLists, Block.length_successors]
  rw [Block.flow, List.mk_mem_zipIdx_iff_getElem?, successors,
    List.getElem?_eq_getElem hLength, Option.getD_some]
  exact List.getElem?_eq_getElem hLength

theorem mem_backflow_predecessors (h : j < b.size) :
    (b.predecessors j, j) ∈ b.block.backflow 0 none := by
  have hLength : j < b.predecessorLists.length := by
    rwa [predecessorLists, Block.length_predecessors]
  rw [Block.backflow, List.mk_mem_zipIdx_iff_getElem?, predecessors,
    List.getElem?_eq_getElem hLength, Option.getD_some]
  exact List.getElem?_eq_getElem hLength

theorem mem_successors_iff (b : Body) (i j : Nat) :
    j ∈ b.successors i ↔ b.block.Edge 0 none i j := by
  constructor
  · intro h
    cases hTargets : b.successorLists[i]? with
    | none =>
      rw [successors, hTargets] at h
      cases h
    | some targets =>
      rw [successors, hTargets] at h
      exact ⟨targets, List.mk_mem_zipIdx_iff_getElem?.mpr hTargets, h⟩
  · rintro ⟨targets, hMem, hj⟩
    rwa [successors_of_mem_flow hMem]

theorem forward_of_mem_successors (h : j ∈ b.successors i) : i < j ∧ j < b.size := by
  have hForward := ((mem_successors_iff b i j).mp h).forward (by simp)
  rw [Nat.zero_add] at hForward
  rcases hForward with ⟨hLess, hInside | ⟨hExit, _⟩⟩
  · exact ⟨hLess, hInside⟩
  · cases hExit

end Hinting.Body
