import Hinting.Proofs.Linker

/-!
# The graph that a linker builds

What a linker adds for a block depends on the block, its position and on whether the last
statement falls through to what follows. Read off by position, these edges are the
successors and predecessors of the block, in the same order, so linking in one pass and
reading a block come to the same.
-/

namespace Hinting

open Linker

namespace Block

/-- Whether control falls into a block, or through it to what follows. -/
def continues (b : Block) (falls : Bool) : Bool :=
  b.size ≠ 0 || falls

/-- The edges that a linker adds for a block at `start`. -/
def edges (start : Nat) (falls : Bool) : Block → List (Nat × Nat)
  | .nil => []
  | .step _ rest => fall start (rest.continues falls) ++ rest.edges (start + 1) falls
  | .cond _ thenArm _ rest =>
    let eif := start + thenArm.size + 1
    fall start (thenArm.continues false) ++ thenArm.edges (start + 1) false ++
      fall eif (rest.continues falls) ++ closing ⟨start, none, eif⟩ ++
      rest.edges (eif + 1) falls
  | .condElse _ thenArm _ elseArm _ rest =>
    let mid := start + thenArm.size + 1
    let eif := mid + elseArm.size + 1
    fall start (thenArm.continues false) ++ thenArm.edges (start + 1) false ++
      fall mid (elseArm.continues false) ++ elseArm.edges (mid + 1) false ++
      fall eif (rest.continues falls) ++ closing ⟨start, some mid, eif⟩ ++
      rest.edges (eif + 1) falls

/-- The branches of a block in the order of their EIFs. -/
def closed (start : Nat) : Block → List Branch
  | .nil => []
  | .step _ rest => rest.closed (start + 1)
  | .cond _ thenArm _ rest =>
    let eif := start + thenArm.size + 1
    thenArm.closed (start + 1) ++ ⟨start, none, eif⟩ :: rest.closed (eif + 1)
  | .condElse _ thenArm _ elseArm _ rest =>
    let mid := start + thenArm.size + 1
    let eif := mid + elseArm.size + 1
    thenArm.closed (start + 1) ++ elseArm.closed (mid + 1) ++
      ⟨start, some mid, eif⟩ :: rest.closed (eif + 1)

theorem closed_perm (b : Block) (start : Nat) : (b.closed start).Perm (b.branches start) := by
  induction b generalizing start with
  | nil => exact .refl _
  | step s rest ih => exact ih _
  | cond s thenArm eif rest ihThen ihRest =>
    exact List.perm_middle.trans (((ihThen _).append (ihRest _)).cons _)
  | condElse s thenArm mid elseArm eif rest ihThen ihElse ihRest =>
    refine List.perm_middle.trans ?_
    exact (((ihThen _).append (ihElse _)).append (ihRest _)).cons _

theorem mergeSort_closed (b : Block) (start : Nat) :
    ((b.closed start).mergeSort fun earlier later => earlier.ifPosition ≤ later.ifPosition) =
      b.branches start := by
  have hSorted := pairwise_branches b start
  have hMerged := List.mergeSort_perm (b.closed start) fun earlier later =>
    earlier.ifPosition ≤ later.ifPosition
  refine List.Perm.eq_of_pairwise ?_ (List.pairwise_mergeSort ?_ ?_ _) (hSorted.imp ?_)
    (hMerged.trans (b.closed_perm start))
  · intro earlier later hEarlier hLater hLe hGe
    simp only [decide_eq_true_eq] at hLe hGe
    have hMem := (hMerged.trans (b.closed_perm start)).mem_iff.mp hEarlier
    exact eq_of_ifPosition_eq hMem hLater (Nat.le_antisymm hLe hGe)
  · intro first second third
    simp only [decide_eq_true_eq]
    omega
  · intro earlier later
    simp only [Bool.or_eq_true, decide_eq_true_eq]
    omega
  · rintro earlier later ⟨hLess, _⟩
    exact decide_eq_true (Nat.le_of_lt hLess)

theorem fallsTo_append {b : Block} (h : b.Regular) (tail : List Statement) :
    fallsTo (b.statements ++ tail) = b.continues (fallsTo tail) := by
  cases b with
  | nil => rfl
  | step s rest =>
    have hSimple := h.1
    cases hKind : s.kind <;> simp_all [statements, fallsTo, continues, size, Kind.isSimple]
  | cond s thenArm eif rest => simp [statements, fallsTo, continues, size, h.1]
  | condElse s thenArm mid elseArm eif rest => simp [statements, fallsTo, continues, size, h.1]

end Block

namespace Linker

variable {tag : String} {size position : Nat} {s : Statement} {l : Linker} {rest : List Statement}

theorem readFrom_of_turn {l' : Linker} (hJump : ∀ form, s.kind ≠ .jump form)
    (hSize : position + rest.length < size)
    (hTurn : { l with edges := l.edges ++ fall position (fallsTo rest) }.turn tag size position s =
      .ok l') :
    readFrom tag size position (s :: rest) l = readFrom tag size (position + 1) rest l' := by
  rw [readFrom, read_of_not_jump hJump hSize, hTurn]
  rfl

theorem readFrom_simple (h : s.kind.isSimple = true) (hSize : position + rest.length < size) :
    readFrom tag size position (s :: rest) l = readFrom tag size (position + 1) rest
      { l with edges := l.edges ++ fall position (fallsTo rest) } := by
  apply readFrom_of_turn _ hSize
  · cases hKind : s.kind <;> simp_all [turn, Kind.isSimple]
  · intro form hKind
    rw [hKind] at h
    cases h

theorem readFrom_ifStart (h : s.kind = .ifStart) (hSize : position + rest.length < size) :
    readFrom tag size position (s :: rest) l = readFrom tag size (position + 1) rest
      ⟨l.edges ++ fall position (fallsTo rest), l.branches, ⟨position, none⟩ :: l.pending⟩ := by
  apply readFrom_of_turn _ hSize
  · simp only [turn, h]
  · simp [h]

theorem readFrom_elseStart (h : s.kind = .elseStart) (hSize : position + rest.length < size)
    {ifPosition : Nat} {outer : List PendingIf}
    (hPending : l.pending = ⟨ifPosition, none⟩ :: outer) :
    readFrom tag size position (s :: rest) l = readFrom tag size (position + 1) rest
      ⟨l.edges ++ fall position (fallsTo rest), l.branches,
        ⟨ifPosition, some position⟩ :: outer⟩ := by
  apply readFrom_of_turn _ hSize
  · simp only [turn, h, hPending]
  · simp [h]

theorem readFrom_ifEnd (h : s.kind = .ifEnd) (hSize : position + rest.length < size)
    {p : PendingIf} {outer : List PendingIf} (hPending : l.pending = p :: outer)
    (hIf : p.ifPosition < position)
    (hElse : ∀ mid, p.elsePosition? = some mid → p.ifPosition < mid ∧ mid < position) :
    readFrom tag size position (s :: rest) l = readFrom tag size (position + 1) rest
      ⟨l.edges ++ fall position (fallsTo rest) ++ closing ⟨p.ifPosition, p.elsePosition?, position⟩,
        l.branches ++ [⟨p.ifPosition, p.elsePosition?, position⟩], outer⟩ := by
  apply readFrom_of_turn _ hSize
  · simp only [turn, h, hPending]
    exact close_eq_ok hIf hElse (by omega) outer
  · simp [h]

theorem readFrom_block {b : Block} (h : b.Regular) {start : Nat} {tail : List Statement}
    (hSize : start + b.size + tail.length ≤ size) (l : Linker) :
    readFrom tag size start (b.statements ++ tail) l = readFrom tag size (start + b.size) tail
      ⟨l.edges ++ b.edges start (fallsTo tail), l.branches ++ b.closed start, l.pending⟩ := by
  induction b generalizing start tail l with
  | nil => simp [Block.statements, Block.size, Block.edges, Block.closed]
  | step s rest ih =>
    obtain ⟨hSimple, hRest⟩ := h
    rw [Block.size] at hSize ⊢
    have hLength : (rest.statements ++ tail).length = rest.size + tail.length := by
      rw [List.length_append, rest.length_statements]
    have hEnd : start + (rest.size + 1) = start + 1 + rest.size := by omega
    rw [Block.statements, List.cons_append, readFrom_simple hSimple (by omega),
      ih hRest (by omega), Block.fallsTo_append hRest, hEnd]
    simp only [Block.edges, Block.closed, List.append_assoc]
  | cond s thenArm eif rest ihThen ihRest =>
    obtain ⟨hIf, hThen, hEif, hRest⟩ := h
    rw [Block.size] at hSize ⊢
    have hList : (Block.cond s thenArm eif rest).statements ++ tail =
        s :: (thenArm.statements ++ eif :: (rest.statements ++ tail)) := by simp [Block.statements]
    have hRestLength : (rest.statements ++ tail).length = rest.size + tail.length := by
      rw [List.length_append, rest.length_statements]
    have hEifLength : (eif :: (rest.statements ++ tail)).length = rest.size + tail.length + 1 := by
      rw [List.length_cons, hRestLength]
    have hThenLength : (thenArm.statements ++ eif :: (rest.statements ++ tail)).length =
        thenArm.size + (rest.size + tail.length + 1) := by
      rw [List.length_append, thenArm.length_statements, hEifLength]
    have hFalls : fallsTo (eif :: (rest.statements ++ tail)) = false := by simp [fallsTo, hEif]
    have hEnd : start + (thenArm.size + rest.size + 2) =
        start + thenArm.size + 1 + 1 + rest.size := by omega
    rw [hList, readFrom_ifStart hIf (by omega), ihThen hThen (by omega),
      Nat.add_right_comm start 1 thenArm.size,
      readFrom_ifEnd hEif (by omega) rfl (show start < _ by omega) (by simp),
      ihRest hRest (by omega), hEnd, Block.fallsTo_append hThen, Block.fallsTo_append hRest, hFalls]
    simp only [Block.edges, Block.closed, List.append_assoc, List.cons_append, List.nil_append]
  | condElse s thenArm mid elseArm eif rest ihThen ihElse ihRest =>
    obtain ⟨hIf, hThen, hMid, hElse, hEif, hRest⟩ := h
    rw [Block.size] at hSize ⊢
    have hList : (Block.condElse s thenArm mid elseArm eif rest).statements ++ tail =
        s :: (thenArm.statements ++
          mid :: (elseArm.statements ++ eif :: (rest.statements ++ tail))) := by
      simp [Block.statements]
    have hRestLength : (rest.statements ++ tail).length = rest.size + tail.length := by
      rw [List.length_append, rest.length_statements]
    have hEifLength : (eif :: (rest.statements ++ tail)).length = rest.size + tail.length + 1 := by
      rw [List.length_cons, hRestLength]
    have hElseLength : (elseArm.statements ++ eif :: (rest.statements ++ tail)).length =
        elseArm.size + (rest.size + tail.length + 1) := by
      rw [List.length_append, elseArm.length_statements, hEifLength]
    have hMidLength : (mid :: (elseArm.statements ++ eif :: (rest.statements ++ tail))).length =
        elseArm.size + (rest.size + tail.length + 1) + 1 := by
      rw [List.length_cons, hElseLength]
    have hThenLength : (thenArm.statements ++
        mid :: (elseArm.statements ++ eif :: (rest.statements ++ tail))).length =
        thenArm.size + (elseArm.size + (rest.size + tail.length + 1) + 1) := by
      rw [List.length_append, thenArm.length_statements, hMidLength]
    have hFallsEif : fallsTo (eif :: (rest.statements ++ tail)) = false := by simp [fallsTo, hEif]
    have hFallsMid : fallsTo (mid :: (elseArm.statements ++ eif :: (rest.statements ++ tail))) =
        false := by simp [fallsTo, hMid]
    have hEnd : start + (thenArm.size + elseArm.size + rest.size + 3) =
        start + thenArm.size + 1 + elseArm.size + 1 + 1 + rest.size := by omega
    have hBetween : ∀ position, some (start + thenArm.size + 1) = some position →
        start < position ∧ position < start + thenArm.size + 1 + elseArm.size + 1 := by
      rintro position ⟨⟩
      omega
    rw [hList, readFrom_ifStart hIf (by omega), ihThen hThen (by omega),
      Nat.add_right_comm start 1 thenArm.size, readFrom_elseStart hMid (by omega) rfl,
      ihElse hElse (by omega), Nat.add_right_comm (start + thenArm.size + 1) 1 elseArm.size,
      readFrom_ifEnd hEif (by omega) rfl (show start < _ by omega) hBetween,
      ihRest hRest (by omega), hEnd, Block.fallsTo_append hThen, Block.fallsTo_append hElse,
      Block.fallsTo_append hRest, hFallsEif, hFallsMid]
    simp only [Block.edges, Block.closed, List.append_assoc, List.cons_append, List.nil_append]

theorem mem_fall_iff (position : Nat) (falls : Bool) (i j : Nat) :
    (i, j) ∈ fall position falls ↔ falls = true ∧ i = position ∧ j = position + 1 := by
  cases falls <;> simp [fall]

theorem closing_cond (start arm : Nat) :
    closing ⟨start, none, start + arm + 1⟩ =
      [(start + arm, start + arm + 1), (start, start + arm + 1)] :=
  rfl

theorem closing_condElse (start arm arm' : Nat) :
    closing ⟨start, some (start + arm + 1), start + arm + 1 + arm' + 1⟩ =
      [(start + arm, start + arm + 1 + arm' + 1), (start, start + arm + 1),
        (start + arm + 1 + arm', start + arm + 1 + arm' + 1)] :=
  rfl

@[simp]
theorem outgoing_append (edges edges' : List (Nat × Nat)) (i : Nat) :
    outgoing (edges ++ edges') i = outgoing edges i ++ outgoing edges' i := by
  simp [outgoing]

theorem outgoing_fall (position : Nat) (falls : Bool) (i : Nat) :
    outgoing (fall position falls) i =
      if falls = true ∧ position = i then [position + 1] else [] := by
  cases falls <;> simp [fall, outgoing, List.filter_cons]
  split <;> rfl

@[simp]
theorem outgoing_cons (edge : Nat × Nat) (edges : List (Nat × Nat)) (i : Nat) :
    outgoing (edge :: edges) i =
      if edge.1 = i then edge.2 :: outgoing edges i else outgoing edges i := by
  by_cases h : edge.1 = i <;> simp [outgoing, h]

@[simp]
theorem incoming_cons (edge : Nat × Nat) (edges : List (Nat × Nat)) (j : Nat) :
    incoming (edge :: edges) j =
      if edge.2 = j then edge.1 :: incoming edges j else incoming edges j := by
  by_cases h : edge.2 = j <;> simp [incoming, h]

@[simp]
theorem incoming_append (edges edges' : List (Nat × Nat)) (j : Nat) :
    incoming (edges ++ edges') j = incoming edges j ++ incoming edges' j := by
  simp [incoming]

theorem incoming_fall (position : Nat) (falls : Bool) (j : Nat) :
    incoming (fall position falls) j =
      if falls = true ∧ j = position + 1 then [position] else [] := by
  cases falls <;> simp [fall, incoming, List.filter_cons, eq_comm]
  split <;> rfl

theorem incoming_fall_of_ne {position j : Nat} (h : j ≠ position + 1) (falls : Bool) :
    incoming (fall position falls) j = [] := by
  simp [incoming_fall, h]

end Linker

namespace Block

variable {start i j : Nat} {falls : Bool} {exit? source? : Option Nat}

theorem continues_eq_true_iff (b : Block) (falls : Bool) :
    b.continues falls = true ↔ b.size ≠ 0 ∨ falls = true := by
  simp [continues]

theorem forward_of_mem_edges {b : Block} (h : (i, j) ∈ b.edges start falls) :
    start ≤ i ∧ i < start + b.size ∧ i < j ∧
      (j < start + b.size ∨ falls = true ∧ j = start + b.size) := by
  induction b generalizing start falls with
  | nil => cases h
  | step s rest ih =>
    simp only [edges, size, List.mem_append, mem_fall_iff, continues_eq_true_iff] at h ⊢
    rcases h with h | h
    · grind
    · have := ih h
      grind
  | cond s thenArm eif rest ihThen ihRest =>
    simp only [edges, size, List.mem_append, mem_fall_iff, continues_eq_true_iff, closing_cond,
      List.mem_cons, Prod.mk.injEq, List.not_mem_nil, or_false] at h ⊢
    rcases h with (((h | h) | h) | h) | h
    · omega
    · have := ihThen h
      omega
    · grind
    · omega
    · have := ihRest h
      grind
  | condElse s thenArm mid elseArm eif rest ihThen ihElse ihRest =>
    simp only [edges, size, List.mem_append, mem_fall_iff, continues_eq_true_iff,
      closing_condElse, List.mem_cons, Prod.mk.injEq, List.not_mem_nil, or_false] at h ⊢
    rcases h with (((((h | h) | h) | h) | h) | h) | h
    · omega
    · have := ihThen h
      omega
    · omega
    · have := ihElse h
      omega
    · grind
    · omega
    · have := ihRest h
      grind

theorem outgoing_of_outside {b : Block} (h : i < start ∨ start + b.size ≤ i) :
    outgoing (b.edges start falls) i = [] := by
  rw [outgoing, List.map_eq_nil_iff, List.filter_eq_nil_iff]
  rintro ⟨i', j⟩ hEdge
  have hForward := forward_of_mem_edges hEdge
  simp only [decide_eq_true_eq]
  omega

theorem incoming_of_outside {b : Block}
    (h : j ≤ start ∨ start + b.size ≤ j ∧ (falls = true → j ≠ start + b.size)) :
    incoming (b.edges start falls) j = [] := by
  rw [incoming, List.map_eq_nil_iff, List.filter_eq_nil_iff]
  rintro ⟨i, j'⟩ hEdge
  have hForward := forward_of_mem_edges hEdge
  simp only [decide_eq_true_eq]
  rintro rfl
  rcases hForward with ⟨_, _, _, hInside | ⟨hFalls, hEnd⟩⟩
  · omega
  · have := h.resolve_left (by omega)
    exact this.2 hFalls hEnd

/-- The edges of a block by their source. The one that leaves it is added elsewhere if the
last statement does not fall through. -/
theorem outgoing_edges {b : Block} {targets : List Nat}
    (hExit : falls = true → exit? = some (start + b.size))
    (h : (targets, i) ∈ b.flow start exit?) :
    outgoing (b.edges start falls) i ++
      (if falls = false ∧ i + 1 = start + b.size then exit?.toList else []) = targets := by
  induction b generalizing start falls exit? with
  | nil => cases h
  | step s rest ih =>
    simp only [mem_flow_step, edges, size, outgoing_append, outgoing_fall,
      continues_eq_true_iff] at h hExit ⊢
    rcases h with ⟨rfl, rfl⟩ | h
    · rw [outgoing_of_outside (b := rest) (by omega), entry?_toList]
      grind
    · have hPosition := position_of_mem_flow h
      rw [← @ih (start + 1) falls exit? (by grind) h]
      grind
  | cond s thenArm eif rest ihThen ihRest =>
    have hNil : outgoing [] i = [] := rfl
    simp only [mem_flow_cond, edges, size, outgoing_append, outgoing_fall, continues_eq_true_iff,
      closing_cond, outgoing_cons, hNil] at h hExit ⊢
    have hThenOutside := @outgoing_of_outside (start + 1) i false thenArm
    have hRestOutside := @outgoing_of_outside (start + thenArm.size + 2) i falls rest
    rcases h with (⟨rfl, rfl⟩ | h) | ⟨rfl, rfl⟩ | h
    · rw [hThenOutside (by omega), hRestOutside (by omega), entry?_toList]
      grind
    · have hPosition := position_of_mem_flow h
      rw [hRestOutside (by omega), ← @ihThen (start + 1) false _ (by simp) h]
      grind
    · rw [hThenOutside (by omega), hRestOutside (by omega), entry?_toList]
      grind
    · have hPosition := position_of_mem_flow h
      rw [hThenOutside (by omega), ← @ihRest (start + thenArm.size + 2) falls exit? (by grind) h]
      grind
  | condElse s thenArm mid elseArm eif rest ihThen ihElse ihRest =>
    have hNil : outgoing [] i = [] := rfl
    simp only [mem_flow_condElse, edges, size, outgoing_append, outgoing_fall,
      continues_eq_true_iff, closing_condElse, outgoing_cons, hNil] at h hExit ⊢
    have hThenOutside := @outgoing_of_outside (start + 1) i false thenArm
    have hElseOutside := @outgoing_of_outside (start + thenArm.size + 2) i false elseArm
    have hRestOutside :=
      @outgoing_of_outside (start + thenArm.size + 1 + elseArm.size + 2) i falls rest
    rcases h with (⟨rfl, rfl⟩ | h) | (⟨rfl, rfl⟩ | h) | ⟨rfl, rfl⟩ | h
    · rw [hThenOutside (by omega), hElseOutside (by omega), hRestOutside (by omega), entry?_toList]
      grind
    · have hPosition := position_of_mem_flow h
      rw [hElseOutside (by omega), hRestOutside (by omega),
        ← @ihThen (start + 1) false _ (by simp) h]
      grind
    · rw [hThenOutside (by omega), hElseOutside (by omega), hRestOutside (by omega), entry?_toList]
      grind
    · have hPosition := position_of_mem_flow h
      rw [hThenOutside (by omega), hRestOutside (by omega),
        ← @ihElse (start + thenArm.size + 2) false _ (by simp) h]
      grind
    · rw [hThenOutside (by omega), hElseOutside (by omega), hRestOutside (by omega), entry?_toList]
      grind
    · have hPosition := position_of_mem_flow h
      rw [hThenOutside (by omega), hElseOutside (by omega),
        ← @ihRest (start + thenArm.size + 1 + elseArm.size + 2) falls exit? (by grind) h]
      grind

theorem incoming_fall_of_mem {b : Block} {sources : List Nat} {before : Nat}
    (h : (sources, j) ∈ b.backflow (before + 1) source?) :
    incoming (fall before (b.continues falls)) j =
      if j = before + 1 then (some before).toList else [] := by
  have hPosition := position_of_mem_backflow h
  have hContinues := (b.continues_eq_true_iff falls).mpr (.inl (by omega))
  simp [incoming_fall, hContinues]

theorem incoming_fall_past (b : Block) (before : Nat) :
    incoming (fall before (b.continues false)) (before + b.size + 1) = [] := by
  rw [incoming_fall, if_neg]
  simp only [continues_eq_true_iff, Bool.false_eq_true, or_false]
  omega

/-- The edges of a block by their target. Those to its first statement are added elsewhere. -/
theorem eraseDups_incoming_edges {b : Block} {sources : List Nat}
    (h : (sources, j) ∈ b.backflow start source?) :
    ((if j = start then source?.toList else []) ++
      incoming (b.edges start falls) j).eraseDups = sources := by
  have hEntry : source?.toList.eraseDups = source?.toList := by
    cases source? <;> simp [List.eraseDups_cons]
  induction b generalizing start falls source? with
  | nil => cases h
  | step s rest ih =>
    rw [edges, incoming_append]
    rcases (mem_backflow_step s rest).mp h with ⟨rfl, rfl⟩ | h
    · rw [if_pos rfl, incoming_fall_of_ne (by omega), incoming_of_outside (.inl (by omega))]
      simpa using hEntry
    · have hPosition := position_of_mem_backflow h
      rw [if_neg (by omega), incoming_fall_of_mem h]
      exact ih h rfl
  | cond s thenArm eif rest ihThen ihRest =>
    have hNil : incoming [] j = [] := rfl
    have hFall := @incoming_fall_of_ne start j
    have hFallEif := @incoming_fall_of_ne (start + thenArm.size + 1) j
    have hThen := @incoming_of_outside (start + 1) j false thenArm
    have hRest := @incoming_of_outside (start + thenArm.size + 2) j falls rest
    have hClosing (h : j ≠ start + thenArm.size + 1) :
        incoming (closing ⟨start, none, start + thenArm.size + 1⟩) j = [] := by
      simp [closing_cond, Ne.symm h, hNil]
    simp only [edges, incoming_append]
    rcases (mem_backflow_cond s eif thenArm rest).mp h with (⟨rfl, rfl⟩ | h) | ⟨rfl, hj⟩ | h
    · rw [if_pos rfl, hFall (by omega), hThen (by omega), hFallEif (by omega),
        hClosing (by omega), hRest (by omega)]
      simpa using hEntry
    · have hPosition := position_of_mem_backflow h
      rw [if_neg (by omega), incoming_fall_of_mem h, hFallEif (by omega), hClosing (by omega),
        hRest (by omega), List.append_nil, List.append_nil, List.append_nil]
      exact ihThen h rfl
    · rw [if_neg (by omega), hThen (.inr ⟨by omega, by simp⟩), hFallEif (by omega),
        hRest (by omega), closing_cond, hj, incoming_fall_past]
      split <;> simp [*, incoming, List.eraseDups_cons]
    · have hPosition := position_of_mem_backflow h
      rw [if_neg (by omega), hFall (by omega), hThen (by omega), incoming_fall_of_mem h,
        hClosing (by omega), List.append_nil]
      exact ihRest h rfl
  | condElse s thenArm mid elseArm eif rest ihThen ihElse ihRest =>
    have hNil : incoming [] j = [] := rfl
    have hFall := @incoming_fall_of_ne start j
    have hFallMid := @incoming_fall_of_ne (start + thenArm.size + 1) j
    have hFallEif := @incoming_fall_of_ne (start + thenArm.size + 1 + elseArm.size + 1) j
    have hThen := @incoming_of_outside (start + 1) j false thenArm
    have hElse := @incoming_of_outside (start + thenArm.size + 2) j false elseArm
    have hRest := @incoming_of_outside (start + thenArm.size + 1 + elseArm.size + 2) j falls rest
    have hClosing (hMid : j ≠ start + thenArm.size + 1)
        (hEif : j ≠ start + thenArm.size + 1 + elseArm.size + 1) :
        incoming (closing ⟨start, some (start + thenArm.size + 1),
          start + thenArm.size + 1 + elseArm.size + 1⟩) j = [] := by
      simp [closing_condElse, Ne.symm hMid, Ne.symm hEif, hNil]
    simp only [edges, incoming_append]
    rcases (mem_backflow_condElse s mid eif thenArm elseArm rest).mp h with
      (⟨rfl, rfl⟩ | h) | (⟨rfl, hj⟩ | h) | ⟨rfl, hj⟩ | h
    · rw [if_pos rfl, hFall (by omega), hThen (by omega), hFallMid (by omega), hElse (by omega),
        hFallEif (by omega), hClosing (by omega) (by omega), hRest (by omega)]
      simpa using hEntry
    · have hPosition := position_of_mem_backflow h
      rw [if_neg (by omega), incoming_fall_of_mem h, hFallMid (by omega), hElse (by omega),
        hFallEif (by omega), hClosing (by omega) (by omega), hRest (by omega)]
      simpa using ihThen h rfl
    · rw [if_neg (by omega), hThen (.inr ⟨by omega, by simp⟩), hFallMid (by omega),
        hElse (by omega), hFallEif (by omega), hRest (by omega), closing_condElse, hj,
        incoming_fall_past, incoming_cons, if_neg (by omega), incoming_cons, if_pos rfl,
        incoming_cons, if_neg (by omega)]
      simp [incoming, List.eraseDups_cons]
    · have hPosition := position_of_mem_backflow h
      rw [if_neg (by omega), hFall (by omega), hThen (by omega), incoming_fall_of_mem h,
        hFallEif (by omega), hClosing (by omega) (by omega), hRest (by omega)]
      simpa using ihElse h rfl
    · rw [if_neg (by omega), hFall (by omega), hThen (by omega),
        hElse (.inr ⟨by omega, by simp⟩), hFallEif (by omega), hRest (by omega),
        closing_condElse, hj, incoming_fall_past, incoming_cons, if_pos rfl, incoming_cons,
        if_neg (by omega), incoming_cons, if_pos rfl]
      have hDistinct : start + thenArm.size + 1 + elseArm.size ≠ start + thenArm.size := by omega
      simp [incoming, List.eraseDups_cons, hDistinct]
    · have hPosition := position_of_mem_backflow h
      rw [if_neg (by omega), hFall (by omega), hThen (by omega), hFallMid (by omega),
        hElse (by omega), incoming_fall_of_mem h, hClosing (by omega) (by omega)]
      simpa using ihRest h rfl

end Block

/-- The adjacency lists and the branches of a body. -/
def Body.graph (b : Body) : LinkedGraph :=
  ⟨b.successorLists, b.predecessorLists, b.branches⟩

namespace Linker

theorem graph_block (b : Block) :
    graph b.size ⟨b.edges 0 false, b.closed 0, []⟩ =
      ⟨b.successors 0 none, b.predecessors 0 none, b.branches 0⟩ := by
  rw [graph, Block.mergeSort_closed]
  congr 1
  · apply List.ext_getElem
    · rw [List.length_map, List.length_range, Block.length_successors]
    · intro i _ hi
      have hMem : ((b.successors 0 none)[i], i) ∈ b.flow 0 none := by
        rw [Block.flow, List.mk_mem_zipIdx_iff_getElem?, List.getElem?_eq_getElem hi]
      have hView := @Block.outgoing_edges 0 i false none b _ (by simp) hMem
      simpa using hView
  · apply List.ext_getElem
    · rw [List.length_map, List.length_range, Block.length_predecessors]
    · intro j _ hj
      have hMem : ((b.predecessors 0 none)[j], j) ∈ b.backflow 0 none := by
        rw [Block.backflow, List.mk_mem_zipIdx_iff_getElem?, List.getElem?_eq_getElem hj]
      have hView := @Block.eraseDups_incoming_edges 0 j false none b _ hMem
      simpa using hView

theorem run_of_block {tag : String} {statements : List Statement} {b : Block}
    (h : Block.ofStatements statements = .ok b) :
    run tag statements = .ok ⟨b.successors 0 none, b.predecessors 0 none, b.branches 0⟩ := by
  have hStatements := Block.statements_of_ofStatements h
  have hLength := b.length_statements
  rw [hStatements] at hLength
  have hRead : readFrom tag statements.length 0 (b.statements ++ []) {} = _ :=
    readFrom_block (Block.regular_of_ofStatements h) (by simp [hLength]) {}
  rw [List.append_nil, hStatements] at hRead
  rw [run, hRead, ← graph_block, ← hLength]
  rfl

/-- Linking in one pass agrees with `Body.ofStatements`. -/
theorem run_eq (tag : String) (statements : List Statement) :
    run tag statements =
      ((Body.ofStatements tag statements).map Body.graph).mapError LinkError.refused := by
  unfold Body.ofStatements
  cases h : Block.ofStatements statements with
  | ok b =>
    rw [run_of_block h]
    rfl
  | error e =>
    rw [run_of_refused h]
    rfl

end Linker

end Hinting
